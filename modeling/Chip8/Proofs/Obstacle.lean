import Chip8.Machine.Execute

/-!
# Obstacles

What can keep an instruction from being carried out: a call finds the call stack
full, a return finds it empty, and the instructions that read or write at I find
that there are no such cells or that the character set is in the way. What the
obstacle is depends on the call stack and on I only.

Results:

* `accessFault_eq_some_iff`, `storeFault_eq_some_iff`: the addresses at which memory
  cannot be read or written.
* `run_execute_of_obstacle`: an instruction that meets an obstacle reports it, and
  leaves the machine as it was although it works in place.
* `run_execute_of_clear`: without an obstacle an instruction is carried out, and
  suspends the machine iff it waits for a key and none was pressed just now.
-/

namespace Chip8

/-! ## Access to memory -/

namespace Memory

/-- The fault of an access to `length` cells, if it has one. -/
def accessFault (start : UInt16) (length : Nat) : Option Fault :=
  if length = 0 ∨ start.toNat + length ≤ memorySize then none
  else some (.outOfBounds (start.toNat + length - 1))

/-- The fault of a store of `length` bytes by the program, if it has one: that there are no such
    cells is found before that they hold the character set. -/
def storeFault (start : UInt16) (length : Nat) : Option Fault :=
  (accessFault start length).or
    (if length ≠ 0 ∧ start.toNat < Glyphs.size then some (.readOnly start.toNat) else none)

/-- The address that is reported is that of the last cell, which need not fit into a word. -/
theorem accessFault_eq_some_iff {start : UInt16} {length : Nat} {fault : Fault} :
    accessFault start length = some fault ↔
      0 < length ∧ memorySize < start.toNat + length ∧
        fault = .outOfBounds (start.toNat + length - 1) := by
  rw [accessFault, Option.ite_none_left_eq_some, Option.some.injEq]
  constructor
  · rintro ⟨outside, rfl⟩
    exact ⟨by omega, by omega, rfl⟩
  · rintro ⟨filled, beyond, rfl⟩
    exact ⟨by omega, rfl⟩

/-- A store that leaves memory is refused for that even if it begins in the character set. -/
theorem storeFault_eq_some_iff {start : UInt16} {last : Nat} {fault : Fault} :
    storeFault start (last + 1) = some fault ↔
      (memorySize ≤ start.toNat + last ∧ fault = .outOfBounds (start.toNat + last)) ∨
        (start.toNat + last < memorySize ∧ start.toNat < Glyphs.size ∧
          fault = .readOnly start.toNat) := by
  rw [storeFault]
  by_cases beyond : memorySize ≤ start.toNat + last
  · have outside : accessFault start (last + 1) = some (.outOfBounds (start.toNat + last)) :=
      accessFault_eq_some_iff.mpr ⟨Nat.succ_pos last, by omega, rfl⟩
    rw [outside, Option.some_or, Option.some.injEq]
    constructor
    · rintro rfl
      exact .inl ⟨beyond, rfl⟩
    · rintro (⟨-, rfl⟩ | ⟨inside, -⟩)
      · rfl
      · omega
  · have inside : accessFault start (last + 1) = none := if_pos (.inr (by omega))
    rw [inside, Option.none_or, Option.ite_none_right_eq_some, Option.some.injEq]
    constructor
    · rintro ⟨⟨-, guarded⟩, rfl⟩
      exact .inr ⟨by omega, guarded, rfl⟩
    · rintro (⟨outside, -⟩ | ⟨-, guarded, rfl⟩)
      · omega
      · exact ⟨⟨Nat.succ_ne_zero last, guarded⟩, rfl⟩

theorem readSlice_eq_match (m : Memory) (start : UInt16) (length : Nat) :
    m.readSlice start length =
      match accessFault start length with
      | some fault => .error fault
      | none => .ok ((List.range' start.toNat length).map m.byteAt) := by
  rw [readSlice_eq, accessFault]
  split <;> rfl

theorem run_store_eq_match (m : Memory) (start : UInt16) (bytes : List UInt8) :
    (store start bytes).run m =
      match storeFault start bytes.length with
      | some fault => .error fault m
      | none => .ok () (m.overwrite start.toNat bytes) := by
  rw [run_store, storeFault, accessFault]
  by_cases inside : bytes.length = 0 ∨ start.toNat + bytes.length ≤ memorySize
  · rw [if_pos inside, if_pos inside, Option.none_or]
    split <;> rfl
  · rw [if_neg inside, if_neg inside, Option.some_or]

end Memory

/-! ## The obstacle of an instruction -/

/-- The obstacle that an instruction meets with this call stack and this I, if any. -/
def Instruction.obstacle (stack : CallStack) (index : UInt16) : Instruction → Option Fault
  | .return => if stack.depth = 0 then some .stackUnderflow else none
  | .call _ => if stack.depth = stackDepth then some .stackOverflow else none
  | .draw _ _ n => Memory.accessFault index n.val
  | .loadRegisters x => Memory.accessFault index (x.val + 1)
  | .storeDecimal _ => Memory.storeFault index 3
  | .storeRegisters x => Memory.storeFault index (x.val + 1)
  | _ => none

/-- The register for which an instruction suspends the machine, where `fresh` is the key pressed
    just now, if any. -/
def Instruction.awaits (fresh : Option Nibble) : Instruction → Option Nibble
  | .waitKey x => if fresh.isNone then some x else none
  | _ => none

theorem Instruction.awaits_eq_some {fresh : Option Nibble} {i : Instruction} {x : Nibble} :
    i.awaits fresh = some x ↔ i = .waitKey x ∧ fresh = none := by
  constructor
  · intro h
    cases i with
    | waitKey y =>
      obtain ⟨none, rfl⟩ := Option.ite_some_none_eq_some.mp h
      exact ⟨rfl, Option.isNone_iff_eq_none.mp none⟩
    | _ => cases h
  · rintro ⟨rfl, rfl⟩
    rfl

namespace Machine

variable {m : Machine} {fault : Fault}

theorem run_storeAtIndex (m : Machine) (bytes : List UInt8) :
    (storeAtIndex bytes).run m =
      match Memory.storeFault m.index bytes.length with
      | some fault => .error fault m
      | none => .ok () { m with memory := m.memory.overwrite m.index.toNat bytes } := by
  rw [storeAtIndex, run_get_bind, onMemory, run_zoom, Memory.run_store_eq_match]
  cases Memory.storeFault m.index bytes.length <;> rfl

theorem run_loadFromIndex (m : Machine) (length : Nat) :
    (loadFromIndex length).run m =
      match Memory.accessFault m.index length with
      | some fault => .error fault m
      | none => .ok ((List.range' m.index.toNat length).map m.memory.byteAt) m := by
  rw [loadFromIndex, run_get_bind, run_ofExcept, Memory.readSlice_eq_match]
  cases Memory.accessFault m.index length <;> rfl

theorem length_decimalDigits (b : UInt8) : (decimalDigits b).length = 3 := rfl

/-- An instruction that meets an obstacle reports it before it has changed anything. -/
theorem run_execute_of_obstacle {i : Instruction} (fresh : Option Nibble)
    (h : i.obstacle m.stack m.index = some fault) :
    (execute fresh i).run m = .error fault m := by
  cases i with
  | «return» =>
    obtain ⟨empty, rfl⟩ := Option.ite_some_none_eq_some.mp h
    rw [execute, EStateM.run_bind, onStack, run_zoom, CallStack.run_pop_of_empty empty]
  | call target =>
    obtain ⟨full, rfl⟩ := Option.ite_some_none_eq_some.mp h
    rw [execute, run_get_bind, EStateM.run_bind, onStack, run_zoom,
      CallStack.run_push_of_full full]
  | draw x y n =>
    have h : Memory.accessFault m.index n.val = some fault := h
    rw [execute, EStateM.run_bind, run_loadFromIndex, h]
  | loadRegisters x =>
    have h : Memory.accessFault m.index (x.val + 1) = some fault := h
    rw [execute, EStateM.run_bind, run_loadFromIndex, h]
  | storeDecimal x =>
    have h : Memory.storeFault m.index 3 = some fault := h
    rw [execute, run_get_bind, run_storeAtIndex, length_decimalDigits, h]
  | storeRegisters x =>
    have h : Memory.storeFault m.index (x.val + 1) = some fault := h
    rw [execute, run_get_bind, run_storeAtIndex, Registers.length_upTo, h]
  | _ => cases h

/-- An instruction that meets no obstacle is carried out. Only one that waits for a key can suspend
    the machine. -/
theorem run_execute_of_clear {i : Instruction} (fresh : Option Nibble)
    (h : i.obstacle m.stack m.index = none) :
    ∃ after, (execute fresh i).run m = .ok () after ∧
      after.awaiting = (i.awaits fresh).or m.awaiting := by
  cases i with
  | «return» =>
    have stored : 0 < m.stack.depth := by
      rw [Nat.pos_iff_ne_zero]
      intro empty
      rw [Instruction.obstacle, if_pos empty] at h
      cases h
    obtain ⟨target, left, popped, -⟩ := CallStack.run_pop_of_pos stored
    rw [execute, EStateM.run_bind, onStack, run_zoom, popped]
    exact ⟨_, rfl, rfl⟩
  | call target =>
    have room : m.stack.depth < stackDepth := by
      apply Nat.lt_of_le_of_ne m.stack.depth_le
      intro full
      rw [Instruction.obstacle, if_pos full] at h
      cases h
    obtain ⟨left, pushed, -⟩ := CallStack.run_push_of_lt room m.counter
    rw [execute, run_get_bind, EStateM.run_bind, onStack, run_zoom, pushed]
    exact ⟨_, rfl, rfl⟩
  | skip condition =>
    refine ⟨_, rfl, ?_⟩
    show (if m.holds condition then m.advance else m).awaiting = m.awaiting
    split <;> rfl
  | draw x y n =>
    have h : Memory.accessFault m.index n.val = none := h
    rw [execute, EStateM.run_bind, run_loadFromIndex, h]
    exact ⟨_, rfl, rfl⟩
  | loadRegisters x =>
    have h : Memory.accessFault m.index (x.val + 1) = none := h
    rw [execute, EStateM.run_bind, run_loadFromIndex, h]
    exact ⟨_, rfl, rfl⟩
  | storeDecimal x =>
    have h : Memory.storeFault m.index 3 = none := h
    rw [execute, run_get_bind, run_storeAtIndex, length_decimalDigits, h]
    exact ⟨_, rfl, rfl⟩
  | storeRegisters x =>
    have h : Memory.storeFault m.index (x.val + 1) = none := h
    rw [execute, run_get_bind, run_storeAtIndex, Registers.length_upTo, h]
    exact ⟨_, rfl, rfl⟩
  | waitKey x => cases fresh <;> exact ⟨_, rfl, rfl⟩
  | _ => exact ⟨_, rfl, rfl⟩

end Machine

end Chip8
