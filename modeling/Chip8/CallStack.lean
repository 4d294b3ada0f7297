import Chip8.Fault

/-!
# The call stack

Sixteen slots and the number of slots in use. A slot that a return has freed
keeps its word until a later call overwrites it, but nothing reads it: all that
the stack answers is determined by `CallStack.toList`, the addresses in use.

Results:

* `length_toList`: the depth counts the addresses in use.
* `run_push_of_lt`, `run_push_of_full`: a push appends the address, or fails iff
  sixteen are stored and leaves the stack as it was.
* `run_pop_of_pos`, `run_pop_of_empty`: a pop takes the last address off, or fails
  iff none is stored and leaves the stack as it was.
-/

namespace Chip8

/-- Return addresses in slots, of which the first `depth` are in use. -/
structure CallStack where
  slots : Vector UInt16 stackDepth
  depth : Nat
  depth_le : depth ≤ stackDepth

namespace CallStack

/-- The stack of a fresh machine. -/
def empty : CallStack := ⟨Vector.replicate stackDepth 0, 0, Nat.zero_le _⟩

/-- The stored addresses, the oldest first. -/
def toList (s : CallStack) : List UInt16 := s.slots.toList.take s.depth

/-- Whether nothing is stored. -/
def isEmpty (s : CallStack) : Bool := s.depth == 0

/-- Stores an address above the others. -/
def push (address : UInt16) : EStateM Fault CallStack Unit := do
  let s ← get
  if h : s.depth < stackDepth then
    set (CallStack.mk (s.slots.set s.depth address) (s.depth + 1) h)
  else throw .stackOverflow

/-- Takes the address stored last. -/
def pop : EStateM Fault CallStack UInt16 := do
  let s ← get
  if h : 0 < s.depth then
    have := s.depth_le
    set (CallStack.mk s.slots (s.depth - 1) (by omega))
    return s.slots[s.depth - 1]
  else throw .stackUnderflow

@[simp] theorem length_toList (s : CallStack) : s.toList.length = s.depth := by
  have := s.depth_le
  simp only [toList, List.length_take, Vector.length_toList]
  omega

/-- The depth of a stack with one more address. -/
theorem depth_of_toList_concat {s t : CallStack} {address : UInt16}
    (h : t.toList = s.toList ++ [address]) : t.depth = s.depth + 1 := by
  rw [← length_toList t, h, List.length_append, length_toList, List.length_singleton]

theorem isEmpty_iff (s : CallStack) : s.isEmpty = true ↔ s.toList = [] := by
  rw [← List.length_eq_zero_iff, length_toList, isEmpty, beq_iff_eq]

/-- Below the full depth a call puts its address on top. -/
theorem run_push_of_lt {s : CallStack} (h : s.depth < stackDepth) (address : UInt16) :
    ∃ t, (push address).run s = .ok () t ∧ t.toList = s.toList ++ [address] := by
  refine ⟨⟨s.slots.set s.depth address, s.depth + 1, h⟩, by simp [push, h], ?_⟩
  apply List.ext_getElem?
  intro i
  simp only [toList, Vector.toList_set, List.getElem?_take, List.getElem?_append,
    List.length_take, Vector.length_toList, List.getElem?_set, Vector.getElem?_toList]
  have := s.depth_le
  rcases Nat.lt_trichotomy i s.depth with hi | rfl | hi
  · have : i < min s.depth stackDepth := by omega
    have : i < s.depth + 1 := by omega
    have : s.depth ≠ i := by omega
    simp [*]
  · have : min s.depth stackDepth = s.depth := by omega
    simp [*]
  · have : ¬ i < min s.depth stackDepth := by omega
    have : ¬ i < s.depth + 1 := by omega
    have : i - min s.depth stackDepth ≠ 0 := by omega
    simp only [*, ↓reduceIte, List.getElem?_singleton]

/-- A call at the full depth changes nothing. -/
theorem run_push_of_full {s : CallStack} (h : s.depth = stackDepth) (address : UInt16) :
    (push address).run s = .error .stackOverflow s := by
  have full : ¬ s.depth < stackDepth := by omega
  simp only [push, EStateM.run_bind, EStateM.run_get, dif_neg full]
  rfl

/-- A return takes the address on top, and the others stay. -/
theorem run_pop_of_pos {s : CallStack} (h : 0 < s.depth) :
    ∃ address t, pop.run s = .ok address t ∧ s.toList = t.toList ++ [address] := by
  have hd := s.depth_le
  refine ⟨s.slots[s.depth - 1], ⟨s.slots, s.depth - 1, by omega⟩, ?_, ?_⟩
  · simp only [pop, EStateM.run_bind, EStateM.run_get, dif_pos h]
    rfl
  have hlt : s.depth - 1 < s.slots.toList.length := by
    rw [Vector.length_toList]; omega
  have key := List.take_append_getElem hlt
  rw [show s.depth - 1 + 1 = s.depth by omega] at key
  simpa [toList] using key.symm

theorem run_pop_of_empty {s : CallStack} (h : s.depth = 0) :
    pop.run s = .error .stackUnderflow s := by
  have empty : ¬ 0 < s.depth := by omega
  simp only [pop, EStateM.run_bind, EStateM.run_get, dif_neg empty]
  rfl

theorem toList_of_run_push {s t : CallStack} {address : UInt16}
    (ran : (push address).run s = .ok () t) : t.toList = s.toList ++ [address] := by
  rcases Nat.lt_or_eq_of_le s.depth_le with room | full
  · obtain ⟨t', ran', pushed⟩ := run_push_of_lt room address
    rw [ran'] at ran
    cases ran
    exact pushed
  · rw [run_push_of_full full] at ran
    cases ran

theorem toList_of_run_pop {s t : CallStack} {address : UInt16}
    (ran : pop.run s = .ok address t) : s.toList = t.toList ++ [address] := by
  rcases Nat.eq_zero_or_pos s.depth with empty | stored
  · rw [run_pop_of_empty empty] at ran
    cases ran
  · obtain ⟨address', t', ran', popped⟩ := run_pop_of_pos stored
    rw [ran'] at ran
    cases ran
    exact popped

end CallStack

end Chip8
