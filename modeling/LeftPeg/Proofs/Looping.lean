import LeftPeg.Proofs.Ring

/-!
# Runs around a ring

A run that enters a ring of rules goes once around it in each attempt: the rules on the way are live
activations, and the first invocation of the last one comes back to the entry. That puts the entry
on a cycle and makes it know all the other rules (`Activation.Heads`), so that their outcomes are
set aside before the next attempt. In between the state of the run is `Scan.Looping`.

An attempt follows its evaluation (`Engine.turned_invokeWithin`).
-/

namespace LeftPeg

variable {S M : Type}

namespace Lap

/-- The entry of the ring is the first activation of its run. -/
def site (lap : Lap) : Site :=
  ⟨lap.key.rule, lap.key.position, 0⟩

/-- What the memo table holds for the entry. -/
def cell (lap : Lap) : Entry Tree :=
  lap.site.cell lap.best

end Lap

/-! ## The state of a run -/

/-- The activation at which the ring was entered. Once something has come back to it, it knows all
the others. -/
structure Activation.Heads (lap : Lap) (others : List RuleId) (head : Activation Tree) :
    Prop where
  key_eq : head.key = lap.key
  parents_eq : head.parents = []
  growing_iff : head.stage = .growing ↔ lap.best.isSuccess = true
  involved : head.stage ≠ .plain → ∀ rule ∈ others, rule ∈ head.involved

namespace Scan

/-- Something has come back to the first activation. -/
def Returned (scan : Scan Tree M) : Prop :=
  ∀ head ∈ scan.stack.toList.head?, head.stage ≠ .plain

variable [DecidableEq S]

/-- A run on its way around a ring: the rules of the `path` are live above the entry, and those of
the `rest` are not. The separate rules are answered by plain evaluation. -/
structure Looping (grammar : Grammar S M) (input : Array S) (Separate : RuleId → Prop)
    (lap : Lap) (path rest : List RuleId) (scan : Scan Tree M) : Prop where
  live : ∃ head uppers, scan.stack.toList = head :: uppers ∧ head.Heads lap (path ++ rest) ∧
    uppers.map Activation.key = path.map (⟨·, lap.key.position⟩) ∧
    ∀ upper ∈ uppers, upper.stage = .plain
  cell : scan.memo.find? lap.key.rule lap.key.position = some lap.cell
  resting {rule : RuleId} {slot : Nat} : rule ∈ rest →
    scan.memo.find? rule lap.key.position ≠ some (.inProgress slot)
  marked {rule : RuleId} {position slot : Nat} : Separate rule →
    scan.memo.find? rule position ≠ some (.inProgress slot)
  finished {rule : RuleId} {position : Nat} {outcome : Outcome Tree} : Separate rule →
    scan.memo.find? rule position = some (.finished outcome) →
      ∃ log, grammar.Plain input rule position outcome log

/-- The rest of the ring has not been asked in this attempt, or its answer is at hand. -/
def Ready (grammar : Grammar S M) (input : Array S) (lap : Lap) (rest : List RuleId)
    (scan : Scan Tree M) : Prop :=
  (∀ rule ∈ rest, scan.memo.find? rule lap.key.position = none) ∨
    (scan.Returned ∧ ∃ outcome, grammar.Comes input lap rest outcome ∧
      ∀ rule ∈ rest.head?, scan.memo.find? rule lap.key.position = some (.finished outcome))

variable {grammar : Grammar S M} {input : Array S} {Separate : RuleId → Prop} {lap : Lap}
  {path rest : List RuleId} {scan scan' : Scan Tree M}

omit [DecidableEq S] in
theorem returned_iff {head : Activation Tree} {uppers : List (Activation Tree)}
    (hlive : scan.stack.toList = head :: uppers) : scan.Returned ↔ head.stage ≠ .plain := by
  unfold Returned
  rw [hlive]
  simp

namespace Looping

theorem beside (h : scan.Looping grammar input Separate lap path rest) :
    scan.Beside grammar input Separate [] scan where
  live_eq := rfl
  recursions_eq := rfl
  others _ := rfl
  marked hseparate hfind := absurd hfind (h.marked hseparate)
  finished := h.finished

/-- The entry is live, and the rules of the path are. -/
theorem depth_eq (h : scan.Looping grammar input Separate lap path rest) :
    scan.stack.depth = path.length + 1 := by
  obtain ⟨head, uppers, hlist, -, hkeys, -⟩ := h.live
  have hlength : uppers.length = path.length := by simpa using congrArg List.length hkeys
  rw [← ActivationStack.length_toList, hlist, List.length_cons, hlength]

/-- The activation of the last rule on the path is at work, or else that of the entry. -/
theorem currentRule (h : scan.Looping grammar input Separate lap path rest) :
    scan.currentRule = some (path.getLastD lap.key.rule) := by
  obtain ⟨head, uppers, hlive, hhead, hkeys, -⟩ := h.live
  unfold Scan.currentRule
  rw [ActivationStack.top?_eq, hlive]
  cases hpath : path.getLast? with
  | none =>
    obtain rfl := List.getLast?_eq_none_iff.mp hpath
    obtain rfl := List.map_eq_nil_iff.mp hkeys
    exact congrArg (fun key => some key.rule) hhead.key_eq
  | some last =>
    -- The keys above the entry are those of the path, in the same order.
    have hlast := congrArg List.getLast? hkeys
    rw [List.getLast?_map, List.getLast?_map, hpath] at hlast
    cases huppers : uppers.getLast? with
    | none =>
      rw [huppers] at hlast
      exact nomatch hlast
    | some top =>
      rw [huppers] at hlast
      injection hlast with hlast
      rw [List.getLast?_cons, huppers, List.getLastD_eq_getLast?, hpath]
      exact congrArg (fun key => some key.rule) hlast

/-- Separate rules do not touch the ring. -/
theorem of_beside (h : scan.Looping grammar input Separate lap path rest)
    (hring : ∀ rule ∈ lap.key.rule :: rest, ¬ Separate rule)
    (hbeside : scan'.Beside grammar input Separate [] scan) :
    scan'.Looping grammar input Separate lap path rest where
  live := by
    have hlist : scan'.stack.toList = scan.stack.toList := congrArg List.reverse hbeside.live_eq
    rw [hlist]
    exact h.live
  cell := (hbeside.others (hring _ List.mem_cons_self)).trans h.cell
  resting hmem := by
    rw [hbeside.others (hring _ (List.mem_cons_of_mem _ hmem))]
    exact h.resting hmem
  marked hseparate hfind := nomatch hbeside.marked hseparate hfind
  finished := hbeside.finished

end Looping

omit [DecidableEq S] in
theorem Returned.of_live (h : scan.Returned) (hlive : scan'.stack.live = scan.stack.live) :
    scan'.Returned := by
  have hlist : scan'.stack.toList = scan.stack.toList := congrArg List.reverse hlive
  unfold Returned
  rw [hlist]
  exact h

theorem Ready.of_beside (h : scan.Ready grammar input lap rest)
    (hring : ∀ rule ∈ rest, ¬ Separate rule)
    (hbeside : scan'.Beside grammar input Separate [] scan) :
    scan'.Ready grammar input lap rest := by
  rcases h with hclear | ⟨hreturned, outcome, hcomes, hfind⟩
  · refine .inl fun rule hmem => ?_
    rw [hbeside.others (hring rule hmem)]
    exact hclear rule hmem
  · refine .inr ⟨hreturned.of_live hbeside.live_eq, outcome, hcomes, fun rule hmem => ?_⟩
    rw [hbeside.others (hring rule (List.mem_of_mem_head? hmem))]
    exact hfind rule hmem

end Scan

/-! ## Coming back to the entry -/

namespace ActivationStack

variable {V : Type} {stack : ActivationStack V} {head : Activation V}
  {uppers : List (Activation V)}

theorem get?_bottom (h : stack.toList = head :: uppers) : stack.get? 0 = some head := by
  rw [get?_eq, h]
  rfl

/-- All other activations are above the first one. -/
theorem toList_reenter_bottom (h : stack.toList = head :: uppers) :
    (stack.reenter 0).toList =
      (head.involveAll (uppers.map Activation.rule)).atStage .seeding ::
        uppers.map fun upper => upper.addParent 0 := by
  unfold reenter
  rw [toList_modify, toList_mapAbove, above_eq, h]
  rfl

end ActivationStack

namespace Activation.Heads

variable {lap : Lap} {others : List RuleId} {head : Activation Tree}

/-- The entry learns that it is on a cycle, and of the rules on it. -/
theorem reenter (h : head.Heads lap others) (hbest : lap.best = .failure) {rules : List RuleId}
    (hrules : ∀ rule ∈ others, rule ∈ rules) (hentry : lap.key.rule ∉ others) :
    ((head.involveAll rules).atStage .seeding).Heads lap others where
  key_eq := by
    have hcall := sameCall_involveAll head rules
    rw [← h.key_eq]
    exact congrArg₂ MemoKey.mk hcall.rule_eq hcall.position_eq
  parents_eq := (parents_involveAll head rules).trans h.parents_eq
  growing_iff := by simp [atStage, hbest, Outcome.isSuccess]
  involved _ rule hmem := by
    refine mem_involved_involveAll.mpr (.inr ⟨hrules rule hmem, ?_⟩)
    rintro rfl
    have hrule : head.rule = lap.key.rule := congrArg MemoKey.rule h.key_eq
    exact hentry (hrule ▸ hmem)

end Activation.Heads

namespace Scan.Looping

variable [DecidableEq S] {grammar : Grammar S M} {input : Array S} {Separate : RuleId → Prop}
  {lap : Lap} {path rest : List RuleId} {scan : Scan Tree M}

/-- The first invocation that comes back to the entry is turned away. -/
theorem reenter (h : scan.Looping grammar input Separate lap path [])
    (hentry : lap.key.rule ∉ path) (hbest : lap.best = .failure) :
    ∃ scan', scan.reenter lap.site = (.ok .failure, scan') ∧
      scan'.Looping grammar input Separate lap path [] ∧ scan'.Returned ∧
      scan'.position = scan.position := by
  obtain ⟨head, uppers, hlive, hhead, hkeys, hplain⟩ := h.live
  have hrule : head.rule = lap.key.rule := congrArg MemoKey.rule hhead.key_eq
  have hany : (scan.stack.get? lap.site.slot).any (·.rule = lap.site.rule) = true := by
    have hget : scan.stack.get? lap.site.slot = some head := ActivationStack.get?_bottom hlive
    rw [hget, Option.any_some]
    exact decide_eq_true hrule
  have hlist := ActivationStack.toList_reenter_bottom hlive
  -- Above the entry are the rules of the path, which is all of the ring.
  have hrules : uppers.map Activation.rule = path := by
    have hmap := congrArg (List.map MemoKey.rule) hkeys
    simpa [Function.comp_def, Activation.key] using hmap
  have hheads : ((head.involveAll (uppers.map Activation.rule)).atStage .seeding).Heads lap
      (path ++ []) := by
    rw [List.append_nil] at hhead ⊢
    exact hhead.reenter hbest (fun rule hmem => hrules ▸ hmem) hentry
  unfold Scan.reenter
  rw [if_pos hany]
  refine ⟨_, rfl, ?_, (returned_iff hlist).mpr Stage.noConfusion, rfl⟩
  refine { h with live := ⟨_, _, hlist, hheads, ?_, ?_⟩ }
  · rw [← hkeys, List.map_map]
    refine List.map_congr_left fun upper _ => ?_
    have hcall := Activation.sameCall_addParent upper 0
    exact congrArg₂ MemoKey.mk hcall.rule_eq hcall.position_eq
  · rw [List.forall_mem_map]
    intro upper hmem
    rw [Activation.stage_addParent]
    exact hplain upper hmem

/-- The next rule on the way around becomes an activation. -/
theorem enter {site : Site} (h : scan.Looping grammar input Separate lap path (site.rule :: rest))
    (hentry : site.rule ≠ lap.key.rule) (hrest : site.rule ∉ rest) (hapart : ¬ Separate site.rule)
    (hposition : site.position = lap.key.position) :
    (scan.enter site).Looping grammar input Separate lap (path ++ [site.rule]) rest := by
  have hfind : ∀ {rule position}, site.rule ≠ rule →
      (scan.enter site).memo.find? rule position = scan.memo.find? rule position :=
    fun hne => (find?_enter ..).trans (if_neg fun h => hne h.1)
  have hseparate : ∀ {rule}, Separate rule → site.rule ≠ rule := by
    rintro rule hrule rfl
    exact hapart hrule
  constructor
  case live =>
    obtain ⟨head, uppers, hlive, hhead, hkeys, hplain⟩ := h.live
    refine ⟨head, uppers ++ [{ rule := site.rule, position := site.position }], ?_, ?_, ?_, ?_⟩
    · exact ActivationStack.toList_push.trans (congrArg (· ++ _) hlive)
    · rw [List.append_assoc]
      exact hhead
    · rw [List.map_append, List.map_append, hkeys]
      exact congrArg (fun position => _ ++ [MemoKey.mk site.rule position]) hposition
    · rw [List.forall_mem_append]
      refine ⟨hplain, fun upper hmem => ?_⟩
      rw [List.mem_singleton.mp hmem]
  case cell => exact (hfind hentry).trans h.cell
  case resting =>
    intro rule slot hmem
    rw [hfind fun heq => hrest (heq ▸ hmem)]
    exact h.resting (List.mem_cons_of_mem _ hmem)
  case marked =>
    intro rule position slot hrule
    rw [hfind (hseparate hrule)]
    exact h.marked hrule
  case finished =>
    intro rule position outcome hrule
    rw [hfind (hseparate hrule)]
    exact h.finished hrule

/-- The last activation on the path can be released: nothing has come back to it. -/
theorem live_eq {rule : RuleId}
    (h : scan.Looping grammar input Separate lap (path ++ [rule]) rest) :
    ∃ head uppers top, scan.stack.live = top :: (head :: uppers).reverse ∧ top.stage = .plain ∧
      head.Heads lap (path ++ rule :: rest) ∧
      uppers.map Activation.key = path.map (⟨·, lap.key.position⟩) ∧
      ∀ upper ∈ uppers, upper.stage = .plain := by
  obtain ⟨head, all, hlive, hhead, hkeys, hplain⟩ := h.live
  rw [List.map_append] at hkeys
  obtain ⟨uppers, tops, rfl, huppers, htops⟩ := List.map_eq_append_iff.mp hkeys
  obtain ⟨top, rfl, -⟩ := List.map_eq_singleton_iff.mp htops
  rw [List.forall_mem_append] at hplain
  refine ⟨head, uppers, top, ?_, hplain.2 top List.mem_cons_self, ?_, huppers, hplain.1⟩
  · rw [← scan.stack.live.reverse_reverse]
    exact (congrArg List.reverse hlive).trans (by simp)
  · rw [List.append_assoc] at hhead
    exact hhead

/-- The last activation on the path is released with an outcome. -/
theorem release {scan' : Scan Tree M} {rule : RuleId} {head : Activation Tree}
    {uppers : List (Activation Tree)} {outcome : Outcome Tree}
    (h : scan.Looping grammar input Separate lap (path ++ [rule]) rest)
    (hentry : rule ≠ lap.key.rule) (hapart : ¬ Separate rule)
    (hhead : head.Heads lap (path ++ rule :: rest))
    (hkeys : uppers.map Activation.key = path.map (⟨·, lap.key.position⟩))
    (hplain : ∀ upper ∈ uppers, upper.stage = .plain)
    (hlive : scan'.stack.toList = head :: uppers)
    (hmemo : scan'.memo = scan.memo.put rule lap.key.position (.finished outcome)) :
    scan'.Looping grammar input Separate lap path (rule :: rest) := by
  have hfind : ∀ {other position}, rule ≠ other →
      scan'.memo.find? other position = scan.memo.find? other position := by
    intro other position hne
    rw [hmemo, MemoTable.find?_put, if_neg fun h => hne h.1]
  have hseparate : ∀ {other}, Separate other → rule ≠ other := by
    rintro other hother rfl
    exact hapart hother
  constructor
  case live => exact ⟨head, uppers, hlive, hhead, hkeys, hplain⟩
  case cell => exact (hfind hentry).trans h.cell
  case resting =>
    intro other slot hmem
    by_cases heq : rule = other
    · rw [← heq, hmemo, MemoTable.find?_put_self]
      simp
    · rw [hfind heq]
      exact h.resting ((List.mem_cons.mp hmem).resolve_left (Ne.symm heq))
  case marked =>
    intro other position slot hother
    rw [hfind (hseparate hother)]
    exact h.marked hother
  case finished =>
    intro other position outcome hother
    rw [hfind (hseparate hother)]
    exact h.finished hother

end Scan.Looping

/-! ## Attempts of the rules on the way -/

namespace Engine

variable [DecidableEq S]

/-- What comes of the invocation of the rule that the rest of the ring begins with. -/
inductive Turned (grammar : Grammar S M) (input : Array S) (Separate : RuleId → Prop)
    (lap : Lap) (path rest : List RuleId) (scan : Scan Tree M) :
    Answer Tree M (Outcome Tree) → Prop where
  | turned {outcome : Outcome Tree} {scan' : Scan Tree M}
      (hlooping : scan'.Looping grammar input Separate lap path rest)
      (hready : scan'.Ready grammar input lap rest) (hreturned : scan'.Returned)
      (hposition : scan'.position = outcome.stop?.getD scan.position)
      (hcomes : grammar.Comes input lap rest outcome) :
      Turned grammar input Separate lap path rest scan (.ok outcome, scan')
  | ended {error : ParseError} {scan' : Scan Tree M} (hrun : error.OfRun) :
      Turned grammar input Separate lap path rest scan (.error error, scan')
  | missing {name : String} {scan' : Scan Tree M}
      (hnone : ∀ outcome, ¬ grammar.Comes input lap rest outcome) :
      Turned grammar input Separate lap path rest scan (.error (.unknownRule name), scan')

/-- How the body of the last rule on the path is read. -/
def lapReading (grammar : Grammar S M) (input : Array S) (Separate : RuleId → Prop) (lap : Lap)
    (path rest : List RuleId) : Reading M Remark where
  fail := .missed
  answers := grammar.turns input lap rest
  Within rule place := (rule = rest.headD lap.key.rule ∧ place = lap.key.position) ∨
    grammar.Free input Separate rule
  Good scan := scan.Looping grammar input Separate lap path rest ∧ scan.Ready grammar input lap rest
  Track scan remarks scan' :=
    (scan.Returned → scan'.Returned) ∧ (.returned ∈ remarks → scan'.Returned)
  Lost _ := False
  Beyond _ _ := False
  Excused := ParseError.OfRun

variable {grammar : Grammar S M} {input : Array S} {Separate : RuleId → Prop} {lap : Lap}
  {path rest : List RuleId} {scan scan' : Scan Tree M} {invoke : Invoke Tree M}

/-- The body follows its evaluation if the next rule answers as it should. -/
theorem tracing_lap (hring : ∀ rule ∈ lap.key.rule :: rest, ¬ Separate rule)
    (hstart : lap.key.position ≤ input.size) (hbest : lap.best.Fits lap.key.position input.size)
    (hground : ∀ rule scan, GroundsAll grammar input Separate rule scan (invoke rule scan))
    (hnext : ∀ scan : Scan Tree M, scan.Looping grammar input Separate lap path rest →
      scan.Ready grammar input lap rest → scan.position = lap.key.position →
      Turned grammar input Separate lap path rest scan
        (invoke (rest.headD lap.key.rule) scan)) :
    Tracing input invoke (lapReading grammar input Separate lap path rest) where
  good_move _ h := ⟨{ h.1 with }, h.2⟩
  good_miss _ h := ⟨{ h.1 with }, h.2⟩
  track_move _ _ := ⟨id, fun h => nomatch h⟩
  track_miss _ _ := ⟨id, fun h => nomatch List.mem_singleton.mp h⟩
  track_append h h' := by
    refine ⟨h'.1 ∘ h.1, fun hmem => ?_⟩
    rcases List.mem_append.mp hmem with hmem | hmem
    · exact h'.1 (h.2 hmem)
    · exact h'.2 hmem
  span := Grammar.turns_span hstart hbest
  invoked {rule scan scan' outcome} hwithin hgood hplace hrun := by
    left
    by_cases hown : (⟨rule, scan.position⟩ : MemoKey) = ⟨rest.headD lap.key.rule, lap.key.position⟩
    · injection hown with hrule hposition
      subst hrule
      have hturned := hnext scan hgood.1 hgood.2 hposition
      rw [hrun] at hturned
      cases hturned with
      | turned hlooping hready hreturned hposition' hcomes =>
        refine ⟨⟨hlooping, hready⟩, hposition', [.returned], ?_, fun _ => hreturned,
          fun _ => hreturned⟩
        exact (Answers.turning_own (congrArg _ hposition)).mpr ⟨hcomes, rfl⟩
    · have hfree := hwithin.resolve_left fun h => hown (by rw [h.1, h.2])
      have hgrounds := hground rule scan hgood.1.beside hfree.1 hplace fun _ h => nomatch h
      rw [hrun] at hgrounds
      cases hgrounds with
      | @answered _ log _ hbeside hposition hplain =>
        refine ⟨⟨hgood.1.of_beside hring hbeside, hgood.2.of_beside ?_ hbeside⟩, hposition,
          Remark.ofFailures log, (Answers.turning_other hown).mpr ⟨log, hplain, rfl⟩,
          fun h => h.of_live hbeside.live_eq,
          fun h => absurd h (Remark.returned_not_mem_ofFailures log)⟩
        exact fun rule hmem => hring rule (List.mem_cons_of_mem _ hmem)
      | returned _ hnever => exact absurd (hfree.2 _ hplace) hnever
  aborted {rule scan scan' error} hwithin hgood hplace hrun := by
    by_cases hown : (⟨rule, scan.position⟩ : MemoKey) = ⟨rest.headD lap.key.rule, lap.key.position⟩
    · injection hown with hrule hposition
      subst hrule
      have hturned := hnext scan hgood.1 hgood.2 hposition
      rw [hrun] at hturned
      cases hturned with
      | ended hrun => exact .inl hrun
      | missing hnone =>
        refine .inr (.inl ⟨⟨_, rfl⟩, fun outcome remarks hanswer => ?_⟩)
        exact hnone outcome ((Answers.turning_own (congrArg _ hposition)).mp hanswer).1
    · have hfree := hwithin.resolve_left fun h => hown (by rw [h.1, h.2])
      have hgrounds := hground rule scan hgood.1.beside hfree.1 hplace fun _ h => nomatch h
      rw [hrun] at hgrounds
      cases hgrounds with
      | ended hrun => exact .inl hrun
      | missing hstops =>
        refine .inr (.inl ⟨⟨_, rfl⟩, fun outcome remarks hanswer => ?_⟩)
        obtain ⟨log, hplain, -⟩ := (Answers.turning_other hown).mp hanswer
        exact hstops.1 outcome log hplain
      | returned _ hnever => exact absurd (hfree.2 _ hplace) hnever
  lasting := ⟨fun _ h => h.elim, fun _ h => h.elim, fun _ h => h.elim⟩

/-- The entry answers with the best match so far. -/
theorem turned_entry (engine : Engine S Tree M)
    {evaluate : RuleId → Procedure S Tree M (Outcome Tree) → Scan Tree M →
      Answer Tree M (Outcome Tree)}
    (h : scan.Looping grammar input Separate lap path []) (hentry : lap.key.rule ∉ path)
    (hposition : scan.position = lap.key.position) :
    Turned grammar input Separate lap path [] scan
      (engine.answer evaluate lap.key.rule scan) := by
  have hcell := h.cell
  have hready : ∀ {scan' : Scan Tree M}, scan'.Ready grammar input lap [] :=
    .inl fun _ hmem => nomatch hmem
  unfold answer
  rw [hposition, hcell]
  cases hbest : lap.best with
  | success found =>
    have hfinished : lap.cell = .finished (.success found) := by
      rw [Lap.cell, hbest]
      rfl
    rw [hfinished]
    obtain ⟨head, uppers, hlive, hhead, -⟩ := h.live
    have hgrowing : head.stage = .growing := by
      rw [hhead.growing_iff, hbest]
      rfl
    refine .turned { h with } hready ?_ rfl hbest.symm
    refine (Scan.returned_iff hlive).mpr ?_
    rw [hgrowing]
    exact Stage.noConfusion
  | failure =>
    have hmarker : lap.cell = .inProgress 0 := by
      rw [Lap.cell, hbest]
      rfl
    rw [hmarker]
    obtain ⟨scan', hreenter, hlooping, hreturned, hposition'⟩ := h.reenter hentry hbest
    have hanswer : scan.reenter ⟨lap.key.rule, lap.key.position, 0⟩ = (.ok .failure, scan') :=
      hreenter
    dsimp only
    rw [hanswer]
    exact .turned hlooping hready hreturned hposition' hbest.symm

/-- What comes of the body of the last rule on the path. -/
inductive Lapped (grammar : Grammar S M) (input : Array S) (Separate : RuleId → Prop) (lap : Lap)
    (path rest : List RuleId) (rule : RuleId) (form : Expression S) :
    Answer Tree M (Outcome Tree) → Prop where
  | found {found : Found} {remarks : List Remark} {scan' : Scan Tree M}
      (hlooping : scan'.Looping grammar input Separate lap path rest) (hreturned : scan'.Returned)
      (heval : Evaluates input .missed (grammar.turns input lap rest) (.one form) lap.key.position
        found remarks) :
      Lapped grammar input Separate lap path rest rule form
        (.ok (.ofFound rule lap.key.position found), scan')
  | ended {error : ParseError} {scan' : Scan Tree M} (hrun : error.OfRun) :
      Lapped grammar input Separate lap path rest rule form (.error error, scan')
  | missing {name : String} {scan' : Scan Tree M}
      (hnone : ∀ found remarks, ¬ Evaluates input .missed (grammar.turns input lap rest) (.one form)
        lap.key.position found remarks) :
      Lapped grammar input Separate lap path rest rule form (.error (.unknownRule name), scan')

/-- A body that hands on to the next rule has come back to the entry by its end. -/
theorem lapped_toProcedure {rule : RuleId} {form : Expression S}
    (hcircle : grammar.Circle input Separate lap (path ++ rest))
    (hrule : path.getLastD lap.key.rule = rule)
    (hhands : form.HandsOn (grammar.Free input Separate) (rest.headD lap.key.rule))
    (hground : ∀ rule scan, GroundsAll grammar input Separate rule scan (invoke rule scan))
    (hnext : ∀ scan : Scan Tree M, scan.Looping grammar input Separate lap path rest →
      scan.Ready grammar input lap rest → scan.position = lap.key.position →
      Turned grammar input Separate lap path rest scan
        (invoke (rest.headD lap.key.rule) scan))
    (hlooping : scan.Looping grammar input Separate lap path rest)
    (hready : scan.Ready grammar input lap rest) (hposition : scan.position = lap.key.position) :
    Lapped grammar input Separate lap path rest rule form
      (form.toProcedure.run input invoke scan) := by
  have htracing := tracing_lap hcircle.apart_rest hcircle.position_le hcircle.fits hground hnext
  have hcurrent : ∀ {scan : Scan Tree M},
      (lapReading grammar input Separate lap path rest).Good scan →
      scan.currentRule = some rule := fun hgood => hrule ▸ hgood.1.currentRule
  have hplace : scan.position ≤ input.size := hposition ▸ hcircle.position_le
  have htraced := traced_toProcedure htracing hcurrent form ⟨hlooping, hready⟩ hplace
    fun harrives => (hhands.arrives harrives).imp_left fun h => ⟨h.1, h.2.trans hposition⟩
  generalize form.toProcedure.run input invoke scan = answer at htraced
  cases htraced with
  | excused hexcused => exact .ended hexcused
  | stuck hstuck harrives =>
    refine .missing fun found remarks heval => ?_
    rw [hposition] at harrives
    obtain ⟨_, _, htarget⟩ := harrives.evaluated Grammar.turns_agree heval
    exact hstuck.not_evaluates (fun _ => id) htarget
  | lost hlost => exact hlost.elim
  | found hgood htrack heval =>
    rw [hposition] at heval ⊢
    exact .found hgood.1 (htrack.2 (hhands.returned heval)) heval

/-- A rule of the ring becomes an activation, and its first attempt is its answer. -/
theorem turned_activate (engine : Engine S Tree M) {rule : RuleId} {form : Expression S}
    (hcircle : grammar.Circle engine.input Separate lap (path ++ rule :: rest))
    (hbody : grammar.body? rule = some (.expression form))
    (hhands : form.HandsOn (grammar.Free engine.input Separate) (rest.headD lap.key.rule))
    (hground : ∀ rule scan, GroundsAll grammar engine.input Separate rule scan (invoke rule scan))
    (hnext : ∀ scan : Scan Tree M,
      scan.Looping grammar engine.input Separate lap (path ++ [rule]) rest →
      scan.Ready grammar engine.input lap rest → scan.position = lap.key.position →
      Turned grammar engine.input Separate lap (path ++ [rule]) rest scan
        (invoke (rest.headD lap.key.rule) scan))
    (hlooping : scan.Looping grammar engine.input Separate lap path (rule :: rest))
    (hclear : ∀ other ∈ rule :: rest, scan.memo.find? other lap.key.position = none)
    (hposition : scan.position = lap.key.position) :
    Turned grammar engine.input Separate lap path (rule :: rest) scan
      (engine.activate invoke rule form.toProcedure scan) := by
  let site : Site := ⟨rule, scan.position, scan.stack.depth⟩
  have hdistinct := List.nodup_cons.mp hcircle.distinct
  have hentry : rule ≠ lap.key.rule := by
    rintro rfl
    exact hdistinct.1 (List.mem_append_right _ List.mem_cons_self)
  have hrest : rule ∉ rest := (List.nodup_cons.mp (List.nodup_append.mp hdistinct.2).2.1).1
  have hapart : ¬ Separate rule :=
    hcircle.apart_rest rule (List.mem_cons_of_mem _ List.mem_cons_self)
  have hcircle' : grammar.Circle engine.input Separate lap ((path ++ [rule]) ++ rest) := by
    rw [List.append_assoc]
    exact hcircle
  have hentered : ((scan.enter site).beginAttempt site).Looping grammar engine.input Separate lap
      (path ++ [rule]) rest := { hlooping.enter hentry hrest hapart hposition with }
  have hready : ((scan.enter site).beginAttempt site).Ready grammar engine.input lap rest := by
    refine .inl fun other hmem => ?_
    have hother : ¬ (rule = other ∧ scan.position = lap.key.position) := by
      rintro ⟨rfl, -⟩
      exact hrest hmem
    exact MemoTable.find?_put.trans ((if_neg hother).trans
      (hclear other (List.mem_cons_of_mem _ hmem)))
  have hlapped := lapped_toProcedure hcircle' List.getLastD_concat hhands hground hnext hentered
    hready hposition
  generalize hrun : form.toProcedure.run engine.input invoke
    ((scan.enter site).beginAttempt site) = answer at hlapped
  cases hlapped with
  | ended hended =>
    obtain ⟨scan', hactivate⟩ := activate_of_error hrun
    rw [hactivate]
    exact .ended hended
  | missing hnone =>
    obtain ⟨scan', hactivate⟩ := activate_of_error hrun
    rw [hactivate]
    refine .missing fun outcome hcomes => ?_
    obtain ⟨form', found, remarks, hbody', heval, -⟩ := hcomes
    rw [hbody] at hbody'
    cases hbody'
    exact hnone found remarks heval
  | @found found remarks scan₁ hlooping₁ hreturned heval =>
    obtain ⟨head, uppers, top, hlive, hplain, hhead, hkeys, huppers⟩ := hlooping₁.live_eq
    have hdepth : scan.stack.depth = (head :: uppers).reverse.length := by
      have hlength : uppers.length = path.length := by simpa using congrArg List.length hkeys
      rw [hlooping.depth_eq, List.length_reverse, List.length_cons, hlength]
    obtain ⟨scan', hactivate, hlive', hmemo, hposition', -⟩ :=
      activate_of_ok hrun hlive hdepth hplain
    rw [hactivate]
    rw [hposition] at hmemo
    have hlist' : scan'.stack.toList = head :: uppers := by
      rw [ActivationStack.toList, hlive', List.reverse_reverse]
    have hlist₁ : scan₁.stack.toList = head :: (uppers ++ [top]) := by
      rw [ActivationStack.toList, hlive]
      simp
    have hreturned' : scan'.Returned :=
      (Scan.returned_iff hlist').mpr ((Scan.returned_iff hlist₁).mp hreturned)
    have hcomes : grammar.Comes engine.input lap (rule :: rest)
        (.ofFound rule lap.key.position found) := ⟨form, found, remarks, hbody, heval, rfl⟩
    refine .turned (hlooping₁.release hentry hapart hhead hkeys huppers hlist' hmemo) ?_ hreturned'
      hposition' hcomes
    refine .inr ⟨hreturned', _, hcomes, fun other hmem => ?_⟩
    injection hmem with hmem
    rw [← hmem, hmemo]
    exact MemoTable.find?_put_self

/-- What is left of the way around is answered by the evaluation of its rules, one in the other. -/
theorem turned_invokeWithin (engine : Engine S Tree M)
    (hengine : ∀ rule, engine.body? rule = (grammar.body? rule).map Body.toProcedure)
    (hground : ∀ room rule scan,
      GroundsAll grammar engine.input Separate rule scan (engine.invokeWithin room rule scan))
    (hcircle : grammar.Circle engine.input Separate lap (path ++ rest)) (room : Nat)
    (hlooping : scan.Looping grammar engine.input Separate lap path rest)
    (hready : scan.Ready grammar engine.input lap rest)
    (hposition : scan.position = lap.key.position) :
    Turned grammar engine.input Separate lap path rest scan
      (engine.invokeWithin room (rest.headD lap.key.rule) scan) := by
  -- On what is left of the way: each rule of it is invoked from the body of the one before.
  induction rest generalizing path room scan with
  | nil =>
    have hentry : lap.key.rule ∉ path := by
      rw [List.append_nil] at hcircle
      exact (List.nodup_cons.mp hcircle.distinct).1
    cases room with
    | zero => exact engine.turned_entry hlooping hentry hposition
    | succ room => exact engine.turned_entry hlooping hentry hposition
  | cons rule rest ih =>
    have hring := hcircle.ring
    rw [← List.cons_append] at hring
    cases hring.of_append with
    | @cons _ _ form hbody hhands hrest =>
    have hbody' : engine.body? rule = some form.toProcedure := by
      rw [hengine, hbody]
      rfl
    have hcircle' : grammar.Circle engine.input Separate lap ((path ++ [rule]) ++ rest) := by
      rw [List.append_assoc]
      exact hcircle
    have hanswer : ∀ {evaluate : RuleId → Procedure S Tree M (Outcome Tree) → Scan Tree M →
        Answer Tree M (Outcome Tree)},
        ((∀ other ∈ rule :: rest, scan.memo.find? other lap.key.position = none) →
          Turned grammar engine.input Separate lap path (rule :: rest) scan
            (evaluate rule form.toProcedure scan)) →
        Turned grammar engine.input Separate lap path (rule :: rest) scan
          (engine.answer evaluate rule scan) := by
      intro evaluate hevaluate
      unfold answer
      rw [hposition]
      rcases hready with hclear | ⟨hreturned, outcome, hcomes, hfind⟩
      · rw [hclear rule List.mem_cons_self, hbody']
        exact hevaluate hclear
      · -- The answer is at hand since the rule was invoked before in the same attempt.
        rw [hfind rule rfl]
        exact .turned { hlooping with } (.inr ⟨hreturned, outcome, hcomes, hfind⟩) hreturned rfl
          hcomes
    cases room with
    | zero => exact hanswer fun _ => .ended (.inl ⟨_, _, rfl⟩)
    | succ room =>
      refine hanswer fun hclear => ?_
      exact engine.turned_activate hcircle hbody hhands (hground room)
        (fun scan hlooping hready hposition => ih hcircle' room hlooping hready hposition)
        hlooping hclear hposition

end Engine

end LeftPeg
