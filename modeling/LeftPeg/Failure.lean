/-!
# Furthest failures

Ordered choice tries alternatives and gives them up again, so most of the places where a terminal
did not match say nothing about a faulty input. What helps a reader are the terminals that failed
at the rightmost position that any failure reached. `FurthestFailure` keeps exactly those while the
failures arrive one by one, and `failureSentence` puts them into words.
-/

namespace LeftPeg

/-- Names what was expected at `index`: nothing known, one description, or several. -/
def failureSentence (index : Nat) : List String → String
  | [] => s!"No match at index {index}"
  | [only] => s!"Expected {only} at index {index}"
  | several =>
    let listed := ", ".intercalate several
    s!"Expected one of {listed} at index {index}"

/-- The rightmost position at which a terminal failed, and what was expected there. -/
structure FurthestFailure where
  /-- The rightmost failure position, `0` while nothing has failed. -/
  index : Nat := 0
  /-- The distinct descriptions that failed at `index`, in the order of their first failure. -/
  expected : List String := []
deriving DecidableEq, Repr, Inhabited

namespace FurthestFailure

/-- No terminal has failed yet. -/
def empty : FurthestFailure := {}

def isEmpty (failure : FurthestFailure) : Bool :=
  failure.expected.isEmpty

/-- Takes account of a failure at `index`. One to the left of the rightmost position is dropped,
one to the right of it starts a new set, one at it joins the set unless it is there already. -/
def note (failure : FurthestFailure) (index : Nat) (description : String) : FurthestFailure :=
  if index < failure.index then failure
  else if failure.index < index then ⟨index, [description]⟩
  else if description ∈ failure.expected then failure
  else { failure with expected := failure.expected ++ [description] }

/-- The failures as a sentence, if there were any. -/
def sentence? (failure : FurthestFailure) : Option String :=
  if failure.isEmpty then none else some (failureSentence failure.index failure.expected)

/-! ## What a failure changes -/

variable {failure : FurthestFailure} {index : Nat} {description : String}

theorem note_index :
    (failure.note index description).index = max failure.index index := by
  unfold note
  split
  · omega
  · split
    · dsimp only
      omega
    · split
      · omega
      · dsimp only
        omega

/-- No failure remains from the left of the rightmost position. -/
theorem note_of_lt (h : failure.index < index) :
    failure.note index description = ⟨index, [description]⟩ := by
  have hnot : ¬ index < failure.index := by omega
  simp only [note, hnot, h, if_true, if_false]

theorem mem_expected_note_self :
    description ∈ (failure.note failure.index description).expected := by
  have h : ¬ failure.index < failure.index := Nat.lt_irrefl _
  simp only [note, h, if_false]
  split
  · assumption
  · exact List.mem_append_right _ (List.mem_singleton.mpr rfl)

theorem nodup_expected_note (h : failure.expected.Nodup) :
    (failure.note index description).expected.Nodup := by
  unfold note
  split
  · exact h
  · split
    · simp
    · split
      · exact h
      · rename_i hmem
        refine List.nodup_append.mpr ⟨h, by simp, ?_⟩
        intro a ha b hb
        rw [List.mem_singleton.mp hb]
        rintro rfl
        exact hmem ha

end FurthestFailure

end LeftPeg
