import Chip8.Hex

/-!
# Faults

What can go wrong while the machine executes an instruction, and how each
cause is worded.
-/

namespace Chip8

/-- The number of return addresses that the call stack holds. -/
abbrev stackDepth : Nat := 16

/-- The cause for which a step, or an access to memory or to the call stack, fails. -/
inductive Fault where
  /-- The word is not an instruction. -/
  | unknownInstruction (word : UInt16)
  /-- The access reaches this address, which is no cell of the memory. -/
  | outOfBounds (address : Nat)
  /-- A program wrote to this cell of the character set. -/
  | readOnly (address : Nat)
  /-- A call found the call stack full. -/
  | stackOverflow
  /-- A return found the call stack empty. -/
  | stackUnderflow
deriving DecidableEq, Repr

/-- The text that reports a fault. -/
def Fault.message : Fault → String
  | .unknownInstruction word => s!"unknown opcode {Hex.writeMarked Hex.fault word.toNat}"
  | .outOfBounds address =>
    s!"memory access out of bounds at address {Hex.writeMarked Hex.fault address}"
  | .readOnly address =>
    s!"write to read-only charset at address {Hex.writeMarked Hex.fault address}"
  | .stackOverflow => s!"stack overflow: more than {stackDepth} nested subroutine calls"
  | .stackUnderflow => "stack underflow: return without a matching call"

end Chip8
