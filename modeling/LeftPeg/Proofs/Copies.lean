import LeftPeg.Proofs.Balance

/-!
# Copies in sequence

A repetition that asks for `n` copies and allows for no more comes to what a sequence of `n` copies
comes to: the same answer, the same trees and the same scan (`Expression.run_repetition_copies`).
That is so unless a copy before the last one passes over nothing (`Idles`). A repetition takes such
a copy for its last, as it must if there is no bound, and does not look at how many are still owed.
So it fails, where a sequence goes on to the copies that remain.
-/

namespace LeftPeg

open Expression (Trail)

variable {S M : Type} [DecidableEq S] {input : Array S} {invoke : Invoke Tree M}
  {item : Expression S} {copies : Nat} {trail : Trail} {scan : Scan Tree M}

/-- In a sequence of so many copies, all found up to there, one that is not the last passes over
nothing. -/
inductive Idles (input : Array S) (invoke : Invoke Tree M) (item : Expression S) :
    Nat → Trail → Scan Tree M → Prop where
  | here {copies : Nat} {trail trail' : Trail} {scan scan' : Scan Tree M}
      (hitem : (item.recognise trail).run input invoke scan = (.ok (some trail'), scan'))
      (hidle : scan'.position = scan.position) :
      Idles input invoke item (copies + 2) trail scan
  | later {copies : Nat} {trail trail' : Trail} {scan scan' : Scan Tree M}
      (hitem : (item.recognise trail).run input invoke scan = (.ok (some trail'), scan'))
      (h : Idles input invoke item copies trail' scan') :
      Idles input invoke item (copies + 1) trail scan

theorem Idles.two_le (h : Idles input invoke item copies trail scan) : 2 ≤ copies := by
  induction h with
  | here hitem hidle => omega
  | later hitem h ih => omega

namespace Expression

/-- Each copy that is found is counted, and the count goes on where a sequence goes on. -/
theorem enough_copiesUpTo (hbusy : ¬ Idles input invoke item copies trail scan) (count : Nat) :
    enough (count + copies)
        ((copiesUpTo item.recognise copies count trail).run input invoke scan) =
      (recogniseAll (.replicate copies item) trail).run input invoke scan := by
  induction copies generalizing count trail scan with
  | zero => simp [copiesUpTo, recogniseAll, Procedure.run, enough]
  | succ copies ih =>
    rw [List.replicate_succ, run_recogniseAll_cons, run_copiesUpTo_succ]
    rcases hrun : (item.recognise trail).run input invoke scan with ⟨error | _ | trail', scan'⟩ <;>
      dsimp only
    · rfl
    · simp [enough]
    · split
      · rename_i hidle
        -- Only the last copy may pass over nothing.
        cases copies with
        | zero => simp [enough, recogniseAll, Procedure.run]
        | succ copies => exact absurd (.here hrun hidle) hbusy
      · rw [show count + (copies + 1) = count + 1 + copies by omega]
        exact ih (fun hidles => hbusy (.later hrun hidles)) (count + 1)

/-- Some copies are not as many as are asked for. -/
theorem enough_of_lt {atLeast count : Nat} (h : count < atLeast) (trail : Trail)
    (scan : Scan Tree M) : enough atLeast (.ok (count, trail), scan) = (.ok none, scan) := by
  rw [enough, if_neg (Nat.not_le.mpr h)]

/-- The count ends with the first copy that passes over nothing, and others are still owed. -/
theorem enough_copiesUpTo_of_idles (h : Idles input invoke item copies trail scan) (count : Nat) :
    ∃ scan', enough (count + copies)
      ((copiesUpTo item.recognise copies count trail).run input invoke scan) =
        (.ok none, scan') := by
  induction h generalizing count with
  | @here copies trail trail' scan scan' hitem hidle =>
    rw [run_copiesUpTo_succ, hitem]
    dsimp only
    rw [if_pos hidle]
    exact ⟨scan', enough_of_lt (by omega) trail' scan'⟩
  | @later copies trail trail' scan scan' hitem h ih =>
    rw [run_copiesUpTo_succ, hitem]
    dsimp only
    split
    · have := h.two_le
      exact ⟨scan', enough_of_lt (by omega) trail' scan'⟩
    · rw [show count + (copies + 1) = count + 1 + copies by omega]
      exact ih (count + 1)

/-- A repetition of exactly `n` copies comes to what a sequence of `n` copies comes to, whatever the
rules answer, unless a copy before the last one passes over nothing. Then it fails. -/
theorem run_repetition_copies (input : Array S) (invoke : Invoke Tree M) (item : Expression S)
    (n : Nat) (trail : Trail) (scan : Scan Tree M) :
    (¬ Idles input invoke item n trail scan →
      ((repetition item n (some n)).recognise trail).run input invoke scan =
        ((sequence (.replicate n item)).recognise trail).run input invoke scan) ∧
    (Idles input invoke item n trail scan →
      ∃ scan', ((repetition item n (some n)).recognise trail).run input invoke scan =
        (.ok none, scan') ∧ scan'.position = scan.position) := by
  have hrepetition : ((repetition item n (some n)).recognise trail).run input invoke scan =
      rewind scan.position (enough n
        ((copiesUpTo item.recognise n 0 trail).run input invoke scan)) := by
    rw [recognise, Procedure.run_backtracking, run_repeated]
    rfl
  rw [hrepetition]
  refine ⟨fun hbusy => ?_, fun hidles => ?_⟩
  · have hcopies := enough_copiesUpTo hbusy 0
    rw [Nat.zero_add] at hcopies
    rw [hcopies, recognise, Procedure.run_backtracking]
  · obtain ⟨scan', hstops⟩ := enough_copiesUpTo_of_idles hidles 0
    rw [Nat.zero_add] at hstops
    rw [hstops]
    exact ⟨_, rfl, rfl⟩

end Expression

/-- Two letters that may be missing, as a repetition and as a sequence. -/
def Grammar.twice : Grammar Char Unit :=
  ⟨[⟨"repeated", .expression (.repetition (.optional (Expression.text "a")) 2 (some 2))⟩,
    ⟨"spelled out", .expression (.sequence (.replicate 2 (.optional (Expression.text "a"))))⟩]⟩

theorem Grammar.twice_ofExpressions : Grammar.twice.OfExpressions := by
  intro rule hrule
  simp only [twice, List.mem_cons, List.not_mem_nil, or_false] at hrule
  rcases hrule with rfl | rfl <;> exact ⟨_, rfl⟩

namespace Expression

/-- Two letters are two copies either way. Where there are none, the first of two that may be
missing passes over nothing, and the repetition fails. -/
theorem run_repetition_copies_twice :
    let parser := Parser.new Grammar.twice {}
    let invoke := fun input => (parser.engine input).invokeWithin 999
    let scan := parser.firstScan 2 ⟨0⟩ 0 ()
    ((repetition (text "a") 2 (some 2)).recognise []).run #['a', 'a'] (invoke #['a', 'a']) scan =
      ((sequence (.replicate 2 (text "a"))).recognise []).run #['a', 'a'] (invoke #['a', 'a'])
        scan ∧
    ∃ scan', ((repetition (optional (text "a")) 2 (some 2)).recognise []).run #[] (invoke #[])
      scan = (.ok none, scan') ∧ scan'.position = 0 := by
  intro parser invoke scan
  refine ⟨(run_repetition_copies _ _ _ _ _ _).1 ?_, (run_repetition_copies _ _ _ _ _ _).2 ?_⟩
  · intro hidles
    cases hidles with
    | here hitem hidle =>
      cases hitem
      cases hidle
    | later hitem h => exact absurd h.two_le (by decide)
  · exact .here rfl rfl

/-- So it is not always a sequence that a repetition of exactly so many copies comes to. -/
theorem run_repetition_idle :
    ¬ ∀ (parser : Parser Char Unit) (input : Array Char) (rule : RuleId) (options : Options)
      (scan : Scan Tree Unit), parser.grammar.OfExpressions →
      parser.Occurs input rule options () scan →
      ∀ (room : Nat) (item : Expression Char) (n : Nat) (trail : Trail),
        (((repetition item n (some n)).recognise trail).run input
            ((parser.engine input).invokeWithin room) scan).1.toOption.map Option.isSome =
          (((sequence (.replicate n item)).recognise trail).run input
            ((parser.engine input).invokeWithin room) scan).1.toOption.map Option.isSome := by
  intro h
  let parser := Parser.new Grammar.twice {}
  let invoke := (parser.engine #[]).invokeWithin 999
  let scan := parser.firstScan 0 ⟨0⟩ 0 ()
  let item := optional (text "a")
  have hrepeated : (((repetition item 2 (some 2)).recognise []).run #[] invoke
      scan).1.toOption.map Option.isSome = some false := by decide +kernel
  have hspelled : (((sequence (.replicate 2 item)).recognise []).run #[] invoke
      scan).1.toOption.map Option.isSome = some true := by decide +kernel
  have hsame := h parser #[] ⟨0⟩ {} scan Grammar.twice_ofExpressions (.called .here) 999 item 2 []
  rw [hrepeated, hspelled] at hsame
  cases hsame

/-- The same in a parse: of no input at all, the first rule has no match, and the second has. -/
example :
    ((Parser.new Grammar.twice {}).parse #[] ⟨0⟩ {} ()).result.toOption.map Match.stop = none ∧
      ((Parser.new Grammar.twice {}).parse #[] ⟨1⟩ {} ()).result.toOption.map Match.stop =
        some 0 := by
  decide +kernel

end Expression

end LeftPeg
