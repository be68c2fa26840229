import LeftPeg.Proofs.Termination
import LeftPeg.Proofs.Translation

/-!
# Parsing from the middle

To parse an input from a place in the middle is to parse what remains there, from its beginning,
and to move everything that comes out to the right by as much: where the match and the nodes of its
tree begin and end, how far it got, and the failures that an error reports
(`Parser.parse_shift`). Nothing to the left of the start is looked at, and no position is looked at
for what it is.
-/

namespace LeftPeg

variable {S M : Type}

namespace Relabelling

/-- All positions are moved to the right. -/
def shift (offset : Nat) : Relabelling where
  rename := id
  rename_inj := id
  offset

/-- A tree is moved with everything in it, and stays the same otherwise. -/
theorem tree_shift (offset : Nat) (rule : Option RuleId) (tag : Option String) (start stop : Nat)
    (children : List Tree) :
    (shift offset).tree ⟨rule, tag, start, stop, children⟩ =
      ⟨rule, tag, start + offset, stop + offset, children.map (shift offset).tree⟩ := by
  rw [tree, trees_eq_map]
  cases rule <;> rfl

mutual

theorem expression_shift (offset : Nat) (expression : Expression S) :
    (shift offset).expression expression = expression := by
  cases expression with
  | sequence items => exact congrArg Expression.sequence (expressions_shift offset items)
  | choice alternatives => exact congrArg Expression.choice (expressions_shift offset alternatives)
  | repetition item atLeast atMost =>
    exact congrArg (Expression.repetition · atLeast atMost) (expression_shift offset item)
  | lookahead item positive =>
    exact congrArg (Expression.lookahead · positive) (expression_shift offset item)
  | tagged tag item => exact congrArg (Expression.tagged tag) (expression_shift offset item)
  | literal symbols description => rfl
  | satisfying test description => rfl
  | any => rfl
  | reference name => rfl
  | rule target => rfl

theorem expressions_shift (offset : Nat) (items : List (Expression S)) :
    (shift offset).expressions items = items := by
  cases items with
  | nil => rfl
  | cons item rest =>
    rw [expressions, expression_shift offset item, expressions_shift offset rest]

end

end Relabelling

/-! ## What remains of the input -/

section

variable {input : Array S} {start position : Nat}

theorem drop_extract :
    (input.extract start).toList.drop position = input.toList.drop (position + start) := by
  rw [Array.toList_extract, List.extract_eq_take_drop, List.take_of_length_le (by simp),
    List.drop_drop, Nat.add_comm]

theorem getElem?_extract : (input.extract start)[position]? = input[position + start]? := by
  rw [← Array.getElem?_toList, ← Array.getElem?_toList, ← List.head?_drop, ← List.head?_drop,
    drop_extract]

theorem ite_some_add {p p' : Prop} [Decidable p] [Decidable p'] {stop stop' offset : Nat}
    (hp : p' ↔ p) (hstop : stop' = stop + offset) :
    (if p' then some stop' else none) = (if p then some stop else none).map (· + offset) := by
  by_cases h : p
  · rw [if_pos h, if_pos (hp.mpr h), hstop]
    rfl
  · rw [if_neg h, if_neg (mt hp.mp h)]
    rfl

variable [DecidableEq S]

/-- A terminal matches in what remains as it does in the whole. -/
theorem Expression.reach?_extract (expression : Expression S) (hstart : start ≤ input.size) :
    expression.reach? input (position + start) =
      (expression.reach? (input.extract start) position).map (· + start) := by
  have hsize : (input.extract start).size = input.size - start := by
    rw [Array.size_extract, Nat.min_self]
  cases expression with
  | literal symbols description =>
    refine ite_some_add ?_ (by omega)
    rw [drop_extract, hsize]
    exact and_congr_left fun _ => by omega
  | satisfying test description =>
    refine ite_some_add ?_ (by omega)
    rw [getElem?_extract]
  | any => exact ite_some_add (by omega) (by omega)
  | reference name => rfl
  | rule target => rfl
  | sequence items => rfl
  | choice alternatives => rfl
  | repetition item atLeast atMost => rfl
  | lookahead item positive => rfl
  | tagged tag item => rfl

end

namespace Parser

open Relabelling

variable [DecidableEq S] (parser : Parser S M)

theorem translates_shift {input : Array S} {start : Nat} (hstart : start ≤ input.size) :
    (shift start).Translates (parser.subject (input.extract start)) (parser.subject input) where
  maxDepth_eq := rfl
  reach?_eq expression _ := expression.reach?_extract hstart
  body?_eq {rule form} hbody := by
    rw [expression_shift]
    exact hbody
  unknown hbody := ⟨hbody, rfl⟩

/-- Parsing from `start` on and parsing what remains of the input there come to the same thing,
moved by `start`: both to a match, with all intervals in it moved, or both to an error of one kind,
with the same expectations and with its positions moved. The one position that is not moved is that
of the furthest failure where no terminal has failed. The counters are the same. -/
theorem parse_shift (hforms : parser.grammar.OfExpressions) (input : Array S) (rule : RuleId)
    (wholeInput : Bool) (memory : M) {start : Nat} (hstart : start ≤ input.size) :
    let whole := parser.parse input rule { start? := some start, wholeInput } memory
    let rest := parser.parse (input.extract start) rule { start? := some 0, wholeInput } memory
    whole.result = (shift start).result (shift start).found rest.result ∧
      whole.parser.ledger.metrics = rest.parser.ledger.metrics := by
  dsimp only
  by_cases hrule : rule.index < parser.grammar.size
  · have hsize : (input.extract start).size + start = input.size := by
      rw [Array.size_extract]
      omega
    rw [parse_eq_close _ _ { start? := some start, wholeInput } memory hrule hstart,
      parse_eq_close _ _ { start? := some 0, wholeInput } memory hrule (Nat.zero_le _)]
    dsimp only [Option.getD_some]
    obtain ⟨answer, hinvokes, hcarries⟩ := ((parser.invokes_iff hforms (input.extract start) rule
      (Nat.zero_le _) memory _).mpr rfl).relabel (parser.translates_shift hstart)
        (relates_firstScan parser parser _ input.size rule rule (Nat.zero_add start).symm memory)
    rw [← (parser.invokes_iff hforms input rule hstart memory answer).mp hinvokes]
    have hclose := hcarries.close parser parser { start? := some 0, wholeInput }
      { start? := some start, wholeInput } rfl (input.extract start).size
    rwa [show (input.extract start).size + (shift start).offset = input.size from hsize] at hclose
  · rw [parse_of_size_le _ _ _ memory (Nat.not_lt.mp hrule),
      parse_of_size_le _ _ _ memory (Nat.not_lt.mp hrule)]
    exact ⟨rfl, rfl⟩

end Parser

/-- Letters in a row after a `y`: the first of these parses looks at the `y` no more than the second
one, which does not have it. -/
theorem Parser.parse_shift_ells :
    let ends (input : Array Char) (start : Nat) : Option (Nat × Nat) :=
      ((new Grammar.ells {}).parse input ⟨0⟩ { start? := some start } ()).result.toOption.map
        fun found => (found.start, found.stop)
    Grammar.ells.OfExpressions ∧ ends #['y', 'l', 'l'] 1 = some (1, 3) ∧
      ends #['l', 'l'] 0 = some (0, 2) := by
  intro ends
  have hrest : ends #['l', 'l'] 0 = some (0, 2) := by decide +kernel
  have hshift := ((new Grammar.ells {}).parse_shift Grammar.ells_ofExpressions #['y', 'l', 'l'] ⟨0⟩
    true () (by decide : 1 ≤ #['y', 'l', 'l'].size)).1
  refine ⟨Grammar.ells_ofExpressions, ?_, hrest⟩
  have hremains : #['y', 'l', 'l'].extract 1 = #['l', 'l'] := by decide
  rw [hremains] at hshift
  cases hresult : ((new Grammar.ells {}).parse #['l', 'l'] ⟨0⟩ { start? := some 0 } ()).result with
  | error error =>
    dsimp only [ends] at hrest
    rw [hresult] at hrest
    cases hrest
  | ok found =>
    dsimp only [ends] at hrest ⊢
    rw [hresult] at hrest
    rw [hshift, hresult]
    obtain ⟨start, stop, value⟩ := found
    cases hrest
    rfl

end LeftPeg
