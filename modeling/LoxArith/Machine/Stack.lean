import LoxArith.Compile

set_option autoImplicit false

/-! # The operand stack

The stack is an array of fixed size with a mark: the slots below the mark are live. Popping
lowers the mark and leaves the slot as it was, so an array that was used before holds stale
values above the mark. They cannot be seen: everything is stated of the live values,
`Stack.live`.
-/

namespace LoxArith

/-- The slots, and how many of them are live. -/
structure Stack where
  slots : Vector Float stackCapacity
  height : Nat
  height_le : height ≤ stackCapacity

namespace Stack

/-- An unused stack. -/
def empty : Stack := ⟨Vector.replicate stackCapacity 0.0, 0, Nat.zero_le _⟩

/-- The live values, bottom first. -/
def live (stack : Stack) : List Float := stack.slots.toList.take stack.height

/-- The same slots with none of them live. -/
def cleared (stack : Stack) : Stack := ⟨stack.slots, 0, Nat.zero_le _⟩

/-- Puts a value on top, unless all slots are live. -/
def push? (stack : Stack) (value : Float) : Option Stack :=
  if h : stack.height < stackCapacity then
    some ⟨stack.slots.set stack.height value, stack.height + 1, h⟩
  else none

/-- Takes the value on top, unless no slot is live. -/
def pop? (stack : Stack) : Option (Float × Stack) :=
  if h : 0 < stack.height then
    have := stack.height_le
    some (stack.slots[stack.height - 1], ⟨stack.slots, stack.height - 1, by omega⟩)
  else none

/-! ## The live values -/

@[simp] theorem live_cleared (stack : Stack) : stack.cleared.live = [] := by
  simp [cleared, live]

theorem length_live (stack : Stack) : stack.live.length = stack.height := by
  simp [live, Nat.min_eq_left stack.height_le]

/-- A push puts the value behind the live ones. -/
theorem live_push? {stack after : Stack} {value : Float}
    (h : stack.push? value = some after) : after.live = stack.live ++ [value] := by
  unfold push? at h
  split at h
  · rename_i hlt
    cases h
    simp only [live, Vector.toList_set]
    rw [List.take_add_one, List.take_set_of_le (Nat.le_refl _)]
    simp [hlt]
  · simp at h

/-- A push fails exactly on a full stack. -/
theorem push?_eq_none_iff (stack : Stack) (value : Float) :
    stack.push? value = none ↔ stack.height = stackCapacity := by
  have := stack.height_le
  unfold push?
  split <;> simp <;> omega

/-- A pop takes the last live value. -/
theorem live_pop? {stack after : Stack} {value : Float}
    (h : stack.pop? = some (value, after)) : stack.live = after.live ++ [value] := by
  unfold pop? at h
  split at h
  · rename_i hpos
    have hle := stack.height_le
    simp only [Option.some.injEq, Prod.mk.injEq] at h
    obtain ⟨hv, rfl⟩ := h
    obtain ⟨n, hn⟩ : ∃ n, stack.height = n + 1 := ⟨stack.height - 1, by omega⟩
    simp only [live, hn, Nat.add_sub_cancel] at *
    rw [List.take_add_one]
    have hlt : n < stack.slots.toList.length := by simp; omega
    rw [List.getElem?_eq_getElem hlt]
    simp [← hv]
  · simp at h

/-- A pop fails exactly on a stack without live values. -/
theorem pop?_eq_none_iff (stack : Stack) : stack.pop? = none ↔ stack.live = [] := by
  rw [← List.length_eq_zero_iff, length_live]
  unfold pop?
  split <;> simp <;> omega

end Stack

end LoxArith
