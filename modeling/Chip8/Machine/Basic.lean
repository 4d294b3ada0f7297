import Chip8.CallStack
import Chip8.Display.Sprite
import Chip8.Journal
import Chip8.Keys
import Chip8.Memory.Basic
import Chip8.Random
import Chip8.Registers
import Chip8.Timers

/-!
# The machine

All that a machine holds, and the choices that were made when it was created.
-/

namespace Chip8

/-- The choices that a machine is created with. -/
structure Config where
  /-- The seed of the random numbers; without one they start anywhere. -/
  seed : Option UInt64 := none
  /-- The bit that a left shift reports. -/
  leftShiftFlag : LeftShiftFlag := .mostSignificant
  /-- What becomes of a sprite at the edge of the display. -/
  edge : EdgeRule := .wrap
  /-- How many ticks take the timers down by one; zero counts as one. -/
  timerDivider : UInt8 := 1
deriving DecidableEq, Repr

/-- The state of a machine. -/
structure Machine where
  config : Config
  memory : Memory
  registers : Registers
  /-- The register I, where sprites and stored registers are. -/
  index : UInt16
  /-- The address of the next instruction. -/
  counter : UInt16
  stack : CallStack
  display : Display
  /-- Whether the display was drawn to since someone last asked. -/
  redraw : Bool
  timers : Timers
  keypad : Keypad
  /-- The register that is to take a key, while the machine is suspended. -/
  awaiting : Option Nibble
  generator : Generator

namespace Machine

/-- A fresh machine; `chance` is the generator for want of a seed. -/
def create (config : Config) (chance : Generator) : Machine where
  config := config
  memory := .initial
  registers := .zero
  index := 0
  counter := programOffset
  stack := .empty
  display := .blank
  redraw := false
  timers := .stopped
  keypad := .initial
  awaiting := none
  generator := config.seed.elim chance .ofSeed

/-- A command to the memory of the machine. -/
def onMemory {ε α : Type} (command : EStateM ε Memory α) : EStateM ε Machine α :=
  zoom Machine.memory (fun m memory => { m with memory }) command

/-- A command to the call stack of the machine. -/
def onStack {ε α : Type} (command : EStateM ε CallStack α) : EStateM ε Machine α :=
  zoom Machine.stack (fun m stack => { m with stack }) command

/-- The machine after a key event was sent to it. -/
def send (m : Machine) (e : KeyEvent) : Machine := { m with keypad := m.keypad.send e }

/-- Tells whether the display was drawn to since this was last asked. -/
def takeRedraw (m : Machine) : Bool × Machine := (m.redraw, { m with redraw := false })

end Machine

end Chip8
