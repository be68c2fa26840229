import LeftPeg.Proofs.Purging
import LeftPeg.Proofs.Settling

/-!
# Scans where left recursion is direct

Where nothing comes back to an activation by way of another one, the accounts of cycles stay empty:
nothing is involved, nothing is set aside, and no activation has parents. The live activations and
their cells can then be told one by one, as `Frame`s, and each other outcome in the memo table is
one that its rule settles on (`Scan.Framed`).
-/

namespace LeftPeg

variable {S M V : Type}

/-! ## The activation on top -/

namespace ActivationStack

variable {stack : ActivationStack V} {top : Activation V} {rest : List (Activation V)} {slot : Nat}

theorem get?_top (hlive : stack.live = top :: rest) (hslot : slot = rest.length) :
    stack.get? slot = some top := by
  rw [get?_eq, toList, hlive, List.reverse_cons, hslot, ← List.length_reverse]
  exact List.getElem?_concat_length

theorem countAbove_top (hlive : stack.live = top :: rest) (hslot : slot = rest.length) :
    slot < stack.depth ∧ stack.countAbove slot = 0 := by
  have hdepth := stack.depth_eq
  rw [hlive, List.length_cons] at hdepth
  unfold countAbove
  omega

theorem live_modify_top (hlive : stack.live = top :: rest) (hslot : slot = rest.length)
    (f : Activation V → Activation V) : (stack.modify slot f).live = f top :: rest := by
  obtain ⟨hlt, hcount⟩ := countAbove_top hlive hslot
  unfold modify
  rw [if_pos hlt]
  dsimp only
  rw [hcount, hlive, List.modify_zero_cons]

/-- Nothing is above the activation on top, so all it learns is that it is recursive. -/
theorem live_reenter_top (hlive : stack.live = top :: rest) (hslot : slot = rest.length) :
    (stack.reenter slot).live = top.atStage .seeding :: rest := by
  have hcount := (countAbove_top hlive hslot).2
  have hmap : (stack.mapAbove slot fun activation => activation.addParent slot).live =
      top :: rest := by
    unfold mapAbove
    dsimp only
    rw [hcount, hlive]
    rfl
  have habove : stack.above slot = [] := by
    unfold above
    rw [hcount]
    rfl
  unfold reenter
  rw [live_modify_top hmap hslot, habove]
  rfl

/-- An activation without parents has nobody to tell. -/
theorem live_report_top (hlive : stack.live = top :: rest) (hslot : slot = rest.length)
    (hparents : top.parents = []) : (stack.report slot).live = top :: rest := by
  unfold report
  rw [get?_top hlive hslot]
  dsimp only
  rw [hparents, List.foldl_nil, live_modify_top hlive hslot]
  cases top
  cases hparents
  rfl

theorem pop_top (hlive : stack.live = top :: rest) :
    ∃ popped, stack.pop = .ok (rest.length, popped) ∧ popped.live = rest := by
  have hdepth : stack.depth = rest.length + 1 := by
    rw [stack.depth_eq, hlive, List.length_cons]
  obtain ⟨popped, hpop, -, -⟩ := pop_of_depth hdepth
  obtain ⟨-, -, top', htop⟩ := pop_eq_ok hpop
  refine ⟨popped, hpop, ?_⟩
  rw [toList, toList, hlive, List.reverse_cons] at htop
  exact (List.reverse_inj.mp (List.append_inj' htop rfl).1).symm

end ActivationStack

/-- The activation on top is released with its answer. -/
theorem Scan.release_top {scan : Scan V M} {site : Site} {top : Activation V}
    {rest : List (Activation V)} (hlive : scan.stack.live = top :: rest)
    (hslot : site.slot = rest.length) (outcome : Outcome V) :
    ∃ stack, release site (.ok outcome, scan) = (.ok outcome, { scan with stack }) ∧
      stack.live = rest := by
  obtain ⟨popped, hpop, hpopped⟩ := ActivationStack.pop_top hlive
  refine ⟨popped, ?_, hpopped⟩
  unfold release Scan.pop
  dsimp only
  rw [hpop]
  exact if_pos hslot.symm

/-! ## Frames -/

/-- A live activation and what the memo table holds for it. -/
structure Frame where
  activation : Activation Tree
  cell : Entry Tree

def Frame.key (frame : Frame) : MemoKey :=
  frame.activation.key

namespace Site

def key (site : Site) : MemoKey :=
  ⟨site.rule, site.position⟩

/-- The frame of an activation that involves no other rules. -/
def frame (site : Site) (stage : Stage) (cell : Entry Tree) : Frame :=
  ⟨{ rule := site.rule, position := site.position, stage }, cell⟩

/-- What the memo table holds while a rule is evaluated: its marker, or its seed. -/
def cell (site : Site) : Outcome Tree → Entry Tree
  | .success found => .finished (.success found)
  | .failure => .inProgress site.slot

end Site

/-- The live activations are those of the frames, and the memo table holds their cells. Each other
cell holds an outcome that its rule settles on and whose failures have all been noted. -/
structure Scan.Framed [DecidableEq S] (grammar : Grammar S M) (input : Array S)
    (frames : List Frame) (scan : Scan Tree M) : Prop where
  live_eq : scan.stack.live = frames.map Frame.activation
  find?_eq {frame : Frame} : frame ∈ frames →
    scan.memo.find? frame.key.rule frame.key.position = some frame.cell
  marked {rule : RuleId} {position slot : Nat} :
    scan.memo.find? rule position = some (.inProgress slot) →
      ∃ frame ∈ frames, frame.key = ⟨rule, position⟩
  settled {rule : RuleId} {position : Nat} {outcome : Outcome Tree} :
    scan.memo.find? rule position = some (.finished outcome) →
      (∃ frame ∈ frames, frame.key = ⟨rule, position⟩) ∨
      ∃ log, grammar.Settled input rule position outcome log ∧
        ∀ entry ∈ log, scan.failures.Absorbs entry

namespace Scan.Framed

variable [DecidableEq S] {grammar : Grammar S M} {input : Array S} {frame frame' : Frame}
  {frames : List Frame} {scan scan' : Scan Tree M} {site : Site} {stage : Stage}
  {best attempt : Outcome Tree}

theorem move (h : scan.Framed grammar input frames) (position : Nat) :
    Framed grammar input frames { scan with position } :=
  { h with }

theorem miss (h : scan.Framed grammar input frames) (expected : String) :
    (scan.miss expected).Framed grammar input frames :=
  { h with
    settled := fun hfind => by
      rcases h.settled hfind with hframe | ⟨log, hsettled, habsorbs⟩
      · exact .inl hframe
      · exact .inr ⟨log, hsettled, fun entry hmem => (habsorbs entry hmem).note _ _⟩ }

theorem currentRule {cell : Entry Tree}
    (h : scan.Framed grammar input (site.frame stage cell :: frames)) :
    scan.currentRule = some site.rule := by
  unfold Scan.currentRule ActivationStack.top?
  rw [h.live_eq]
  rfl

theorem get?_top (h : scan.Framed grammar input (frame :: frames))
    (hslot : site.slot = frames.length) :
    scan.stack.get? site.slot = some frame.activation :=
  ActivationStack.get?_top h.live_eq (by rw [hslot, List.length_map])

/-- Cells that are not those of frames may be lost. -/
theorem sift (h : scan.Framed grammar input frames) {table : MemoTable Tree}
    (hsifted : scan.Sifted table) : Framed grammar input frames { scan with memo := table } where
  live_eq := h.live_eq
  find?_eq {frame} hmem := by
    rcases hsifted frame.key.rule frame.key.position with heq | ⟨-, hlive⟩
    · exact heq.trans (h.find?_eq hmem)
    -- The cell of a frame is that of a live activation, which is not lost.
    · refine absurd rfl (hlive frame.activation ?_)
      rw [h.live_eq]
      exact List.mem_map_of_mem hmem
  marked {rule position slot} hfind := by
    rcases hsifted rule position with heq | ⟨hnone, -⟩
    · exact h.marked (heq.symm.trans hfind)
    · exact nomatch hnone.symm.trans hfind
  settled {rule position outcome} hfind := by
    rcases hsifted rule position with heq | ⟨hnone, -⟩
    · exact h.settled (heq.symm.trans hfind)
    · exact nomatch hnone.symm.trans hfind

/-- The first frame is replaced by another one with the same key. -/
theorem replace (h : scan.Framed grammar input (frame :: frames)) (hkey : frame'.key = frame.key)
    (hnew : ∀ other ∈ frames, other.key ≠ frame.key)
    (hlive : scan'.stack.live = frame'.activation :: frames.map Frame.activation)
    (hcell : scan'.memo.find? frame.key.rule frame.key.position = some frame'.cell)
    (hother : ∀ rule position, (⟨rule, position⟩ : MemoKey) ≠ frame.key →
      scan'.memo.find? rule position = scan.memo.find? rule position)
    (hfailures : scan'.failures = scan.failures) :
    scan'.Framed grammar input (frame' :: frames) where
  live_eq := hlive
  find?_eq {other} hmem := by
    rcases List.mem_cons.mp hmem with rfl | hmem
    · rw [hkey]
      exact hcell
    · have hsame := hother other.key.rule other.key.position (hnew other hmem)
      exact hsame.trans (h.find?_eq (List.mem_cons_of_mem _ hmem))
  marked {rule position slot} hfind := by
    by_cases hown : (⟨rule, position⟩ : MemoKey) = frame.key
    · exact ⟨frame', List.mem_cons_self, hkey.trans hown.symm⟩
    · rw [hother _ _ hown] at hfind
      obtain ⟨other, hmem, hotherKey⟩ := h.marked hfind
      rcases List.mem_cons.mp hmem with rfl | hmem
      · exact absurd hotherKey.symm hown
      · exact ⟨other, List.mem_cons_of_mem _ hmem, hotherKey⟩
  -- A cell that is not the first frame's is what it was, and so is what answers for it.
  settled {rule position outcome} hfind := by
    by_cases hown : (⟨rule, position⟩ : MemoKey) = frame.key
    · exact .inl ⟨frame', List.mem_cons_self, hkey.trans hown.symm⟩
    · rw [hother _ _ hown] at hfind
      rw [hfailures]
      rcases h.settled hfind with ⟨other, hmem, hotherKey⟩ | hsettled
      · rcases List.mem_cons.mp hmem with rfl | hmem
        · exact absurd hotherKey.symm hown
        · exact .inl ⟨other, List.mem_cons_of_mem _ hmem, hotherKey⟩
      · exact .inr hsettled

/-- An activation is started for a key that has no frame yet. -/
theorem enter (h : scan.Framed grammar input frames)
    (hnew : ∀ other ∈ frames, other.key ≠ site.key) :
    (scan.enter site).Framed grammar input
      (site.frame .plain (.inProgress site.slot) :: frames) := by
  constructor
  case live_eq =>
    rw [live_enter, h.live_eq]
    rfl
  case find?_eq =>
    intro other hmem
    rw [find?_enter]
    rcases List.mem_cons.mp hmem with rfl | hmem
    · exact if_pos ⟨rfl, rfl⟩
    · rw [if_neg]
      · exact h.find?_eq hmem
      · rintro ⟨hrule, hposition⟩
        refine hnew other hmem ?_
        unfold Site.key
        rw [hrule, hposition]
  case marked =>
    intro rule position slot hmarker
    rw [find?_enter] at hmarker
    split at hmarker
    · rename_i hown
      exact ⟨_, List.mem_cons_self, by rw [← hown.1, ← hown.2]; rfl⟩
    · obtain ⟨other, hmem, hkey⟩ := h.marked hmarker
      exact ⟨other, List.mem_cons_of_mem _ hmem, hkey⟩
  case settled =>
    intro rule position outcome hfinished
    rw [find?_enter] at hfinished
    split at hfinished
    · exact nomatch hfinished
    · refine (h.settled hfinished).imp_left ?_
      rintro ⟨other, hmem, hkey⟩
      exact ⟨other, List.mem_cons_of_mem _ hmem, hkey⟩

/-- An activation is released with an outcome that its rule settles on. -/
theorem release (h : scan.Framed grammar input (site.frame stage (.finished attempt) :: frames))
    {log : FailureLog} (hsettled : grammar.Settled input site.rule site.position attempt log)
    (habsorbs : ∀ entry ∈ log, scan.failures.Absorbs entry)
    (hlive : scan'.stack.live = frames.map Frame.activation) (hmemo : scan'.memo = scan.memo)
    (hfailures : scan'.failures = scan.failures) : scan'.Framed grammar input frames where
  live_eq := hlive
  find?_eq hmem := by
    rw [hmemo]
    exact h.find?_eq (List.mem_cons_of_mem _ hmem)
  marked {rule position slot} hfind := by
    rw [hmemo] at hfind
    obtain ⟨other, hmem, hkey⟩ := h.marked hfind
    rcases List.mem_cons.mp hmem with rfl | hmem
    · -- The cell of the activation holds its outcome, not a marker.
      have hcell := h.find?_eq List.mem_cons_self
      rw [hkey, hfind] at hcell
      exact nomatch hcell
    · exact ⟨other, hmem, hkey⟩
  settled {rule position outcome} hfind := by
    rw [hmemo] at hfind
    rw [hfailures]
    rcases h.settled hfind with ⟨other, hmem, hkey⟩ | hother
    · rcases List.mem_cons.mp hmem with rfl | hmem
      -- The cell of the activation itself holds what its rule settles on, so it needs no frame.
      · have hcell := h.find?_eq List.mem_cons_self
        rw [hkey, hfind] at hcell
        cases hcell
        injection hkey with hrule hposition
        subst hrule hposition
        exact .inr ⟨log, hsettled, habsorbs⟩
      · exact .inl ⟨other, hmem, hkey⟩
    · exact .inr hother

end Scan.Framed

/-! ## Settling an attempt -/

namespace Scan

variable [DecidableEq S] {grammar : Grammar S M} {input : Array S} {frames : List Frame}
  {scan scan' : Scan Tree M} {site : Site} {stage : Stage} {cell : Entry Tree}
  {best attempt outcome : Outcome Tree}

/-- The activation at the site has its answer and has left its cycle, if it was on one. -/
structure Ended (grammar : Grammar S M) (input : Array S) (frames : List Frame) (site : Site)
    (scan : Scan Tree M) (outcome : Outcome Tree) (scan' : Scan Tree M) : Prop where
  framed : scan'.Framed grammar input (site.frame .plain (.finished outcome) :: frames)
  position_eq : scan'.position = outcome.stop?.getD site.position
  failures_eq : scan'.failures = scan.failures

/-- What settling an attempt comes to, where `best` was the best match so far. -/
inductive Decided (grammar : Grammar S M) (input : Array S) (frames : List Frame) (site : Site)
    (stage : Stage) (best attempt : Outcome Tree) (scan : Scan Tree M) :
    Answer Tree M (Option (Outcome Tree)) → Prop where
  | accepted {scan' : Scan Tree M} (hstage : stage = .plain)
      (hended : scan.Ended grammar input frames site attempt scan') :
      Decided grammar input frames site stage best attempt scan (.ok (some attempt), scan')
  | kept {scan' : Scan Tree M} (hstage : stage ≠ .plain) (hshort : ¬ attempt.Extends best)
      (hended : scan.Ended grammar input frames site best scan') :
      Decided grammar input frames site stage best attempt scan (.ok (some best), scan')
  | grown {scan' : Scan Tree M} (hstage : stage ≠ .plain) (hlonger : attempt.Extends best)
      (hframed : scan'.Framed grammar input (site.frame .growing (site.cell attempt) :: frames))
      (hfailures : scan'.failures = scan.failures) :
      Decided grammar input frames site stage best attempt scan (.ok none, scan')

namespace Framed

/-- The outcome of the activation on top is put into its cell. -/
theorem put (h : scan.Framed grammar input (site.frame stage cell :: frames))
    (hnew : ∀ other ∈ frames, other.key ≠ site.key) {stage' : Stage}
    (hlive : scan'.stack.live =
      (site.frame stage' cell).activation :: frames.map Frame.activation)
    (hmemo : scan'.memo = scan.memo.put site.rule site.position (.finished outcome))
    (hfailures : scan'.failures = scan.failures) :
    scan'.Framed grammar input (site.frame stage' (.finished outcome) :: frames) := by
  refine h.replace rfl hnew hlive ?_ (fun rule position hother => ?_) hfailures
  · rw [hmemo]
    exact MemoTable.find?_put_self
  · rw [hmemo, MemoTable.find?_put, if_neg]
    rintro ⟨rfl, rfl⟩
    exact hother rfl

/-- The activation on top enters another stage. -/
theorem live_atStage (h : scan.Framed grammar input (site.frame stage cell :: frames))
    (hslot : site.slot = frames.length) (stage' : Stage) :
    (scan.atStage site stage').stack.live =
      (site.frame stage' cell).activation :: frames.map Frame.activation :=
  ActivationStack.live_modify_top h.live_eq (by rw [hslot, List.length_map]) _

theorem accept (h : scan.Framed grammar input (site.frame .plain cell :: frames))
    (hnew : ∀ other ∈ frames, other.key ≠ site.key) :
    ∃ scan', scan.accept site attempt = (.ok (some attempt), scan') ∧
      scan.Ended grammar input frames site attempt scan' :=
  ⟨_, rfl, h.put hnew h.live_eq rfl rfl, rfl, rfl⟩

theorem failSeed (h : scan.Framed grammar input (site.frame stage cell :: frames))
    (hslot : site.slot = frames.length) (hnew : ∀ other ∈ frames, other.key ≠ site.key) :
    ∃ scan', scan.failSeed site = (.ok (some .failure), scan') ∧
      scan.Ended grammar input frames site .failure scan' :=
  ⟨_, rfl, h.put hnew (h.live_atStage hslot .plain) rfl rfl, rfl, rfl⟩

theorem finish {found : Match Tree}
    (h : scan.Framed grammar input (site.frame stage (.finished (.success found)) :: frames))
    (hslot : site.slot = frames.length) (hnew : ∀ other ∈ frames, other.key ≠ site.key) :
    ∃ scan', scan.finish site = (.ok (some (.success found)), scan') ∧
      scan.Ended grammar input frames site (.success found) scan' := by
  have hcell := h.find?_eq List.mem_cons_self
  have hlive := h.live_atStage hslot .plain
  -- Nothing has been set aside, so there is nothing to put back and no other cell changes.
  refine ⟨_, finish_eq (h.get?_top hslot) hcell, ?_, rfl, rfl⟩
  refine h.replace rfl hnew ?_ hcell (fun _ _ _ => rfl) rfl
  exact ActivationStack.live_modify_top hlive (by rw [hslot, List.length_map]) _

theorem extend (h : scan.Framed grammar input (site.frame stage cell :: frames))
    (hslot : site.slot = frames.length) (hnew : ∀ other ∈ frames, other.key ≠ site.key) :
    ∃ scan', scan.extend site attempt = (.ok none, scan') ∧
      scan'.Framed grammar input (site.frame .growing (.finished attempt) :: frames) ∧
      scan'.failures = scan.failures := by
  have hlive := h.live_atStage hslot .growing
  -- Nothing is involved, so nothing is set aside and the attempt is all that is written.
  refine ⟨_, extend_eq (h.get?_top hslot) attempt, ?_, rfl⟩
  exact h.put hnew
    (ActivationStack.live_modify_top hlive (by rw [hslot, List.length_map]) _) rfl rfl

/-- An activation without parents decides on an attempt by itself. -/
theorem judging (h : scan.Framed grammar input (site.frame stage cell :: frames))
    (hslot : site.slot = frames.length) (attempt : Outcome Tree) :
    (scan.judging site stage attempt).Framed grammar input (site.frame stage cell :: frames) := by
  refine { h with live_eq := ?_ }
  unfold Scan.judging Scan.record
  dsimp only
  split
  · exact ActivationStack.live_report_top h.live_eq (by rw [hslot, List.length_map]) rfl
  · exact h.live_eq

theorem best?_eq (h : scan.Framed grammar input (site.frame stage (site.cell best) :: frames)) :
    scan.best? site = best.stop? := by
  have hcell : scan.memo.find? site.rule site.position = some (site.cell best) :=
    h.find?_eq List.mem_cons_self
  unfold Scan.best? MemoTable.outcome?
  rw [hcell]
  cases best <;> rfl

/-- The verdict on an attempt depends on nothing but the stage, the attempt and the best match so
far. -/
theorem settle (h : scan.Framed grammar input (site.frame stage (site.cell best) :: frames))
    (hslot : site.slot = frames.length) (hnew : ∀ other ∈ frames, other.key ≠ site.key)
    (hstage : stage = .growing ↔ best.isSuccess = true) (attempt : Outcome Tree) :
    scan.Decided grammar input frames site stage best attempt (scan.settle site attempt) := by
  have hjudging := h.judging hslot attempt
  have hended : ∀ {outcome scan'},
      (scan.judging site stage attempt).Ended grammar input frames site outcome scan' →
      scan.Ended grammar input frames site outcome scan' := fun hended => { hended with }
  have hframe : (site.frame stage (site.cell best)).activation.stage = stage := rfl
  rw [settle_eq (h.get?_top hslot), h.best?_eq, hframe]
  cases hverdict : Verdict.of stage attempt.stop? best.stop? with
  | accept =>
    obtain rfl := Verdict.of_eq_accept_iff.mp hverdict
    obtain ⟨scan', haccept, haccepted⟩ := hjudging.accept hnew
    dsimp only
    rw [haccept]
    exact .accepted rfl (hended haccepted)
  | grow =>
    obtain ⟨hrecursive, hlonger⟩ := Verdict.of_eq_grow_iff.mp hverdict
    obtain ⟨scan', hextend, hframed, hfailures⟩ := hjudging.extend hslot hnew
    dsimp only
    rw [hextend]
    refine .grown hrecursive hlonger ?_ hfailures
    cases attempt with
    | success found => exact hframed
    | failure =>
      obtain ⟨stop, hstop, -⟩ := hlonger
      cases hstop
  | finish =>
    -- The verdict to finish is what is left when neither of the first two is given.
    have hrecursive : stage ≠ .plain := by
      intro hplain
      cases (Verdict.of_eq_accept_iff.mpr hplain).symm.trans hverdict
    have hshort : ¬ attempt.Extends best := by
      intro hlonger
      cases (Verdict.of_eq_grow_iff.mpr ⟨hrecursive, hlonger⟩).symm.trans hverdict
    cases best with
    | failure =>
      -- A marker in the cell is no match to finish with.
      rcases Verdict.seed_of_finish hverdict with hgrowing | hseed
      · cases hstage.mp hgrowing
      · cases hseed
    | success found =>
      obtain ⟨scan', hfinish, hfinished⟩ := hjudging.finish hslot hnew
      dsimp only
      rw [hfinish]
      exact .kept hrecursive hshort (hended hfinished)
  | fail =>
    obtain ⟨rfl, hfailed⟩ := Verdict.of_eq_fail_iff.mp hverdict
    cases best with
    | success found => cases hstage.mpr rfl
    | failure =>
      obtain ⟨scan', hfail, hended'⟩ := hjudging.failSeed hslot hnew
      dsimp only
      rw [hfail]
      refine .kept Stage.noConfusion ?_ (hended hended')
      rintro ⟨stop, hstop, -⟩
      cases hfailed.symm.trans hstop

/-- The same goes for other ways to settle an attempt that keep the cells of live activations. -/
theorem settleBy {settle : Settle Tree M} (hsifts : settle.Sifts)
    (h : scan.Framed grammar input (site.frame stage (site.cell best) :: frames))
    (hslot : site.slot = frames.length) (hnew : ∀ other ∈ frames, other.key ≠ site.key)
    (hstage : stage = .growing ↔ best.isSuccess = true) (attempt : Outcome Tree) :
    scan.Decided grammar input frames site stage best attempt (settle scan site attempt) := by
  obtain ⟨table, hsettle, hsifted⟩ := hsifts scan site attempt
  have hdecided := h.settle hslot hnew hstage attempt
  rw [hsettle]
  generalize scan.settle site attempt = answer at hdecided hsifted
  cases hdecided with
  | accepted hstage hended =>
    exact .accepted hstage { hended with framed := hended.framed.sift hsifted }
  | kept hstage hshort hended =>
    exact .kept hstage hshort { hended with framed := hended.framed.sift hsifted }
  | grown hstage hlonger hframed hfailures =>
    exact .grown hstage hlonger (hframed.sift hsifted) hfailures

end Framed

end Scan

end LeftPeg
