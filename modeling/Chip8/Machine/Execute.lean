import Chip8.Machine.Basic

/-!
# Executing an instruction

What an instruction does to a machine whose counter already points behind it.
It is done in place: where an instruction fails, whatever it has changed by then
stays changed.
-/

namespace Chip8

/-- The hundreds, tens and units of a byte. -/
def decimalDigits (b : UInt8) : List UInt8 := [b / 100, b / 10 % 10, b % 10]

/-- A byte is its hundreds, its tens and its units. -/
theorem exists_decimalDigits (b : UInt8) :
    ∃ hundreds tens units : UInt8, decimalDigits b = [hundreds, tens, units] ∧
      hundreds.toNat ≤ 9 ∧ tens.toNat ≤ 9 ∧ units.toNat ≤ 9 ∧
      100 * hundreds.toNat + 10 * tens.toNat + units.toNat = b.toNat := by
  have small := b.toNat_lt
  have hundreds : (b / 100).toNat = b.toNat / 100 := UInt8.toNat_div b 100
  have tens : (b / 10 % 10).toNat = b.toNat / 10 % 10 :=
    (UInt8.toNat_mod (b / 10) 10).trans (congrArg (· % 10) (UInt8.toNat_div b 10))
  have units : (b % 10).toNat = b.toNat % 10 := UInt8.toNat_mod b 10
  refine ⟨_, _, _, rfl, ?_⟩
  rw [hundreds, tens, units]
  omega

namespace Machine

/-- The value of a register. -/
def reg (m : Machine) (x : Nibble) : UInt8 := m.registers.get x

/-- The machine with a register replaced. -/
def setReg (m : Machine) (x : Nibble) (value : UInt8) : Machine :=
  { m with registers := m.registers.set x value }

/-- The machine with the outcome of an operation put into a register. -/
def putReg (m : Machine) (x : Nibble) (outcome : Computed) : Machine :=
  { m with registers := m.registers.put x outcome }

/-- The machine with its counter at an address. -/
def goTo (m : Machine) (target : UInt16) : Machine := { m with counter := target }

/-- The counter moved on by one instruction. -/
def advance (m : Machine) : Machine := m.goTo (m.counter + 2)

/-- Whether a condition holds. -/
def holds (m : Machine) : Condition → Bool
  | .equalValue x value => m.reg x == value
  | .notEqualValue x value => m.reg x != value
  | .equalRegister x y => m.reg x == m.reg y
  | .notEqualRegister x y => m.reg x != m.reg y
  | .keyDown x => m.keypad.isDown (m.reg x)
  | .keyUp x => !m.keypad.isDown (m.reg x)

/-- Stores bytes at I. -/
def storeAtIndex (bytes : List UInt8) : EStateM Fault Machine Unit := do
  onMemory (Memory.store (← get).index bytes)

/-- The bytes of `length` cells from I on. -/
def loadFromIndex (length : Nat) : EStateM Fault Machine (List UInt8) := do
  let m ← get
  ofExcept (m.memory.readSlice m.index length)

/-- Carries out one instruction, where `fresh` is the key pressed just now, if any. -/
def execute (fresh : Option Nibble) : Instruction → EStateM Fault Machine Unit
  | .clearScreen => modify fun m => { m with display := .blank, redraw := true }
  | .return => do
    let target ← onStack CallStack.pop
    modify (·.goTo target)
  | .jump target => modify (·.goTo (Word.ofAddress target))
  | .call target => do
    onStack (CallStack.push (← get).counter)
    modify (·.goTo (Word.ofAddress target))
  | .jumpOffset base => modify fun m => m.goTo (Word.ofAddress base + (m.reg 0).toUInt16)
  | .skip condition => modify fun m => if m.holds condition then m.advance else m
  | .loadValue x value => modify (·.setReg x value)
  | .addValue x value => modify fun m => m.setReg x (m.reg x + value)
  | .combine operation x y =>
    modify fun m => m.putReg x (operation.compute (m.reg x) (m.reg y))
  | .shift direction x =>
    modify fun m => m.putReg x (direction.compute m.config.leftShiftFlag (m.reg x))
  | .random x mask => modify fun m =>
    { m.setReg x (m.generator.drawByte &&& mask) with generator := m.generator.advance }
  | .loadIndex target => modify fun m => { m with index := Word.ofAddress target }
  | .addIndex x => modify fun m => { m with index := m.index + (m.reg x).toUInt16 }
  | .loadGlyph x =>
    modify fun m => { m with index := Glyphs.address (Fin.ofNat 16 (m.reg x).toNat) }
  | .draw x y n => do
    let rows ← loadFromIndex n.val
    modify fun m =>
      let drawn := m.display.draw m.config.edge (Sprite.origin (m.reg x) (m.reg y)) rows
      { m with
        display := drawn.1
        redraw := true
        registers := m.registers.setFlag drawn.2 }
  | .loadDelay x => modify fun m => m.setReg x m.timers.delay
  | .setDelay x => modify fun m => { m with timers := { m.timers with delay := m.reg x } }
  | .setSound x => modify fun m => { m with timers := { m.timers with sound := m.reg x } }
  | .waitKey x =>
    match fresh with
    | some key => modify (·.setReg x (UInt8.ofNat key.val))
    | none => modify fun m => { m.goTo (m.counter - 2) with awaiting := some x }
  | .storeDecimal x => do storeAtIndex (decimalDigits ((← get).reg x))
  | .storeRegisters x => do storeAtIndex ((← get).registers.upTo x)
  | .loadRegisters x => do
    let bytes ← loadFromIndex (x.val + 1)
    modify fun m => { m with registers := m.registers.restore bytes }

end Machine

end Chip8
