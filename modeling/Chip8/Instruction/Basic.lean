import Chip8.Registers

/-!
# Instructions

What a program can ask the machine to do. Where an instruction names a
register, `x` and `y` stand for Vx and Vy.
-/

namespace Chip8

/-- What a skip depends on. -/
inductive Condition where
  | equalValue (x : Nibble) (value : UInt8)
  | notEqualValue (x : Nibble) (value : UInt8)
  | equalRegister (x y : Nibble)
  | notEqualRegister (x y : Nibble)
  /-- The key named by Vx is down. -/
  | keyDown (x : Nibble)
  /-- The key named by Vx is up. -/
  | keyUp (x : Nibble)
deriving DecidableEq, Repr

/-- One instruction. -/
inductive Instruction where
  /-- Make the whole display black. -/
  | clearScreen
  /-- Go back behind the latest call. -/
  | return
  /-- Go to an address. -/
  | jump (target : Address)
  /-- Go to an address and remember where to go back to. -/
  | call (target : Address)
  /-- Go to the sum of an address and V0. -/
  | jumpOffset (base : Address)
  /-- Leave out the next instruction if the condition holds. -/
  | skip (condition : Condition)
  /-- Put a value into Vx. -/
  | loadValue (x : Nibble) (value : UInt8)
  /-- Add a value to Vx, without a flag. -/
  | addValue (x : Nibble) (value : UInt8)
  /-- Compute Vx from Vx and Vy. -/
  | combine (operation : Operation) (x y : Nibble)
  /-- Shift Vx. -/
  | shift (direction : Shift) (x : Nibble)
  /-- Put a random byte, masked by a value, into Vx. -/
  | random (x : Nibble) (mask : UInt8)
  /-- Point I to an address. -/
  | loadIndex (target : Address)
  /-- Move I on by Vx, without a flag. -/
  | addIndex (x : Nibble)
  /-- Point I to the glyph of the low nibble of Vx. -/
  | loadGlyph (x : Nibble)
  /-- Draw the sprite of `n` rows at I with its upper left corner at column Vx and row Vy. -/
  | draw (x y n : Nibble)
  /-- Put the delay timer into Vx. -/
  | loadDelay (x : Nibble)
  /-- Put Vx into the delay timer. -/
  | setDelay (x : Nibble)
  /-- Put Vx into the sound timer. -/
  | setSound (x : Nibble)
  /-- Wait for a key and put it into Vx. -/
  | waitKey (x : Nibble)
  /-- Store the three decimal digits of Vx at I. -/
  | storeDecimal (x : Nibble)
  /-- Store V0 to Vx at I. -/
  | storeRegisters (x : Nibble)
  /-- Load V0 to Vx from I. -/
  | loadRegisters (x : Nibble)
deriving DecidableEq, Repr

end Chip8
