import LeftPeg.Activation
import LeftPeg.Error

/-!
# The stack of activations

The activations now under evaluation, the first to start at the bottom. An activation is known by
its slot, its distance from the bottom, for as long as it lives. Slots are drawn from a pool that
grows when it has to and never shrinks; a slot released keeps what its activation has left there
until it is used again.

The activation started last is the one at work, so the stack is kept with its top first and its
depth at hand. It is read through `toList`, bottom first, where slots are indices: `get?_eq`,
`above_eq`, `toList_push`, `toList_modify` and `pop_eq_ok` say what the operations are there.
-/

namespace LeftPeg

/-- The live activations and the other slots of the pool. -/
structure ActivationStack (V : Type) where
  /-- The live activations, top first. -/
  live : List (Activation V) := []
  /-- The number of live activations. -/
  depth : Nat := 0
  /-- The slots not in use, the next one to be used first. -/
  spare : List (Activation V) := []
  depth_eq : depth = live.length := by rfl
deriving DecidableEq, Repr

namespace ActivationStack

variable {V : Type}

/-- The number of slots, in use or not. -/
def capacity (stack : ActivationStack V) : Nat :=
  stack.depth + stack.spare.length

/-- No activation is live, and the pool has the given size. -/
def withCapacity (capacity : Nat) : ActivationStack V :=
  { spare := .replicate capacity { rule := ⟨0⟩, position := 0 } }

/-- The live activations, bottom first. -/
def toList (stack : ActivationStack V) : List (Activation V) :=
  stack.live.reverse

def isLive (stack : ActivationStack V) (slot : Nat) : Bool :=
  slot < stack.depth

/-- How many activations were started after the one in `slot`. -/
def countAbove (stack : ActivationStack V) (slot : Nat) : Nat :=
  stack.depth - (slot + 1)

/-- The live activation in a slot. -/
def get? (stack : ActivationStack V) (slot : Nat) : Option (Activation V) :=
  if slot < stack.depth then stack.live[stack.countAbove slot]? else none

/-- The activation started last. -/
def top? (stack : ActivationStack V) : Option (Activation V) :=
  stack.live.head?

/-- The live activations started after the one in `slot`, bottom first. -/
def above (stack : ActivationStack V) (slot : Nat) : List (Activation V) :=
  (stack.live.take (stack.countAbove slot)).reverse

/-- Changes the activation in a slot. -/
def modify (stack : ActivationStack V) (slot : Nat) (f : Activation V → Activation V) :
    ActivationStack V :=
  if slot < stack.depth then
    { stack with
      live := stack.live.modify (stack.countAbove slot) f
      depth_eq := by rw [List.length_modify, stack.depth_eq] }
  else stack

/-- Changes all activations started after the one in `slot`. -/
def mapAbove (stack : ActivationStack V) (slot : Nat) (f : Activation V → Activation V) :
    ActivationStack V :=
  let count := stack.countAbove slot
  { stack with
    live := (stack.live.take count).map f ++ stack.live.drop count
    depth_eq := by
      rw [List.length_append, List.length_map, ← List.length_append, List.take_append_drop,
        stack.depth_eq] }

/-- What is in the next slot, the present depth, once it is used for an activation of the rule. -/
def nextSlot (stack : ActivationStack V) (rule : RuleId) (position : Nat) : Activation V :=
  match stack.spare with
  | slot :: _ => slot.restart rule position
  | [] => { rule, position }

/-- Starts an activation in the next slot. The pool grows if all slots are in use. -/
def push (stack : ActivationStack V) (rule : RuleId) (position : Nat) : ActivationStack V where
  live := stack.nextSlot rule position :: stack.live
  depth := stack.depth + 1
  spare := stack.spare.tail
  depth_eq := by rw [List.length_cons, stack.depth_eq]

/-- Releases the activation started last and tells its slot. -/
def pop (stack : ActivationStack V) : Except Defect (Nat × ActivationStack V) :=
  match h : stack.live with
  | [] => .error .stackUnderflow
  | top :: rest =>
    .ok (stack.depth - 1,
      { live := rest
        depth := stack.depth - 1
        spare := top :: stack.spare
        depth_eq := by rw [stack.depth_eq, h, List.length_cons, Nat.add_sub_cancel] })

/-- Releases all activations and keeps the pool. -/
def reset (stack : ActivationStack V) : ActivationStack V :=
  { spare := stack.toList ++ stack.spare }

/-- Something has come back to the activation in `slot`. The rules above it are involved in the
cycle, and it becomes a parent of each activation above it, so that what they find out later
reaches it too. -/
def reenter (stack : ActivationStack V) (slot : Nat) : ActivationStack V :=
  let rules := (stack.above slot).map Activation.rule
  let stack := stack.mapAbove slot fun activation => activation.addParent slot
  stack.modify slot fun head => (head.involveAll rules).atStage .seeding

/-- Tells the parents of the activation in `slot` which rules it involves, and forgets them. -/
def report (stack : ActivationStack V) (slot : Nat) : ActivationStack V :=
  match stack.get? slot with
  | none => stack
  | some head =>
    let tell (stack : ActivationStack V) (parent : Nat) : ActivationStack V :=
      stack.modify parent fun activation => activation.involveAll head.involved
    head.parents.foldl tell (stack.modify slot fun activation => { activation with parents := [] })

/-! ## Slots are indices from the bottom -/

variable {stack : ActivationStack V} {rule : RuleId} {position slot : Nat}

@[simp] theorem length_toList : stack.toList.length = stack.depth := by
  rw [toList, List.length_reverse, stack.depth_eq]

theorem get?_eq : stack.get? slot = stack.toList[slot]? := by
  have hdepth := stack.depth_eq
  unfold get? toList countAbove
  split
  · rename_i h
    rw [List.getElem?_reverse (by omega)]
    congr 1
    omega
  · rename_i h
    rw [List.getElem?_eq_none]
    rw [List.length_reverse]
    omega

theorem isLive_iff : stack.isLive slot = true ↔ (stack.get? slot).isSome = true := by
  rw [get?_eq]
  unfold isLive
  rw [decide_eq_true_iff]
  simp

theorem top?_eq : stack.top? = stack.toList.getLast? := by
  rw [top?, toList, List.getLast?_reverse]

theorem above_eq : stack.above slot = stack.toList.drop (slot + 1) := by
  have hdepth := stack.depth_eq
  unfold above toList countAbove
  rw [List.drop_reverse, ← hdepth]

@[simp] theorem length_above : (stack.above slot).length = stack.countAbove slot := by
  rw [above_eq, List.length_drop, length_toList, countAbove]

/-- Whatever has been in the slot, nothing of it stays. -/
@[simp] theorem nextSlot_eq :
    stack.nextSlot rule position = { rule := rule, position := position } := by
  unfold nextSlot
  split <;> rfl

@[simp] theorem live_push :
    (stack.push rule position).live = { rule := rule, position := position } :: stack.live := by
  rw [push, nextSlot_eq]

@[simp] theorem toList_push :
    (stack.push rule position).toList =
      stack.toList ++ [{ rule := rule, position := position }] := by
  simp only [toList, live_push, List.reverse_cons]

@[simp] theorem toList_withCapacity (capacity : Nat) :
    (withCapacity capacity : ActivationStack V).toList = [] := rfl

@[simp] theorem toList_reset : stack.reset.toList = [] := rfl

/-- To change the activation in a slot is to change the list at that index. -/
theorem toList_modify (f : Activation V → Activation V) :
    (stack.modify slot f).toList = stack.toList.modify slot f := by
  have hdepth := stack.depth_eq
  apply List.ext_getElem?
  intro i
  rw [List.getElem?_modify]
  unfold modify toList countAbove
  split
  · by_cases hi : i < stack.live.length
    · rw [List.getElem?_reverse (by rw [List.length_modify]; exact hi), List.getElem?_reverse hi,
        List.getElem?_modify, List.length_modify]
      have hindex : stack.depth - (slot + 1) = stack.live.length - 1 - i ↔ slot = i := by omega
      simp only [hindex]
    · have hlate : stack.live.length ≤ i := by omega
      simp [hlate]
  · have hne : ∀ a, stack.live.reverse[i]? = some a → slot ≠ i := by
      intro a ha
      have := (List.getElem?_eq_some_iff.mp ha).1
      rw [List.length_reverse] at this
      omega
    cases ha : stack.live.reverse[i]? with
    | none => rfl
    | some a => simp [hne a ha]

/-- The activations above a slot are changed, and no others. -/
theorem toList_mapAbove (f : Activation V → Activation V) :
    (stack.mapAbove slot f).toList =
      stack.toList.take (slot + 1) ++ (stack.toList.drop (slot + 1)).map f := by
  have hdepth := stack.depth_eq
  unfold mapAbove toList countAbove
  rw [List.reverse_append, List.reverse_drop, ← List.map_reverse, List.drop_reverse,
    ← hdepth]
  congr 1
  by_cases h : slot + 1 ≤ stack.depth
  · rw [show stack.depth - (stack.depth - (slot + 1)) = slot + 1 by omega]
  · rw [List.take_of_length_le, List.take_of_length_le]
    · rw [List.length_reverse]
      omega
    · rw [List.length_reverse]
      omega

/-- What is released is the last of the list, and its slot is the depth that remains. -/
theorem pop_eq_ok {rest : ActivationStack V} (h : stack.pop = .ok (slot, rest)) :
    slot = rest.depth ∧ rest.capacity = stack.capacity ∧
      ∃ top, stack.toList = rest.toList ++ [top] := by
  unfold pop at h
  split at h
  · exact nomatch h
  · rename_i top live hlive
    injection h with h
    injection h with hslot hrest
    subst hslot hrest
    have hdepth := stack.depth_eq
    rw [hlive, List.length_cons] at hdepth
    refine ⟨rfl, ?_, top, by simp [toList, hlive]⟩
    simp only [capacity, List.length_cons]
    omega

theorem pop_eq_error_iff : stack.pop = .error .stackUnderflow ↔ stack.depth = 0 := by
  have hdepth := stack.depth_eq
  unfold pop
  split
  · rename_i hlive
    simp [hdepth, hlive]
  · rename_i hlive
    simp [hdepth, hlive]

/-! ## Depth -/

@[simp] theorem depth_push : (stack.push rule position).depth = stack.depth + 1 := rfl

/-- The new activation is in the slot that was the depth, and no other slot changes. -/
theorem get?_push {other : Nat} :
    (stack.push rule position).get? other =
      if other = stack.depth then some { rule := rule, position := position }
      else stack.get? other := by
  rw [get?_eq, get?_eq, toList_push, List.getElem?_append, length_toList]
  split
  · rename_i h
    rw [if_neg (by omega)]
  · rename_i h
    split
    · rename_i heq
      rw [heq, Nat.sub_self]
      rfl
    · rw [List.getElem?_eq_none, List.getElem?_eq_none]
      · rw [length_toList]
        omega
      · rw [List.length_singleton]
        omega

@[simp] theorem depth_modify (f : Activation V → Activation V) :
    (stack.modify slot f).depth = stack.depth := by
  unfold modify
  split <;> rfl

@[simp] theorem depth_mapAbove (f : Activation V → Activation V) :
    (stack.mapAbove slot f).depth = stack.depth := rfl

@[simp] theorem depth_reenter : (stack.reenter slot).depth = stack.depth := by
  rw [reenter, depth_modify, depth_mapAbove]

@[simp] theorem depth_report : (stack.report slot).depth = stack.depth := by
  have told (parents : List Nat) (involved : List RuleId) :
      ∀ stack : ActivationStack V,
        (parents.foldl
          (fun stack parent => stack.modify parent fun activation =>
            activation.involveAll involved) stack).depth = stack.depth := by
    induction parents with
    | nil => intro stack; rfl
    | cons parent rest ih =>
      intro stack
      rw [List.foldl_cons, ih, depth_modify]
  unfold report
  split
  · rfl
  · exact (told _ _ _).trans (depth_modify _)

@[simp] theorem depth_reset : stack.reset.depth = 0 := rfl

/-! ## The pool -/

@[simp] theorem capacity_withCapacity (capacity : Nat) :
    (withCapacity capacity : ActivationStack V).capacity = capacity := by
  simp [withCapacity, ActivationStack.capacity]

/-- The pool grows by one slot if all are in use. -/
theorem capacity_push :
    (stack.push rule position).capacity = max stack.capacity (stack.depth + 1) := by
  cases hspare : stack.spare <;> simp only [capacity, push, hspare, List.tail_nil, List.tail_cons,
    List.length_nil, List.length_cons] <;> omega

@[simp] theorem capacity_reset : stack.reset.capacity = stack.capacity := by
  simp [reset, capacity]

end ActivationStack

end LeftPeg
