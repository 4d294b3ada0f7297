import Chip8.Instruction.Encoding
import Chip8.Machine.Execute

/-!
# One step

A step drains the keypad and then executes the instruction at the counter, or,
while the machine is suspended, looks for a fresh key press. Every step that
succeeds and leaves the machine running ticks the timers once.

A step that fails leaves the machine as the failure found it: with the keypad
drained, and with the counter behind the word if there was a word to fetch.
-/

namespace Chip8

/-- What a step leaves: the machine, the events in order, and the fault if it failed. -/
structure Outcome where
  machine : Machine
  events : List Event
  fault : Option Fault

/-- The number of beeps of a step. -/
def Outcome.beeps (o : Outcome) : Nat := o.events.count .beep

namespace Machine

/-- Ticks the timers. -/
def tick (m : Machine) : Machine := { m with timers := m.timers.tick m.config.timerDivider }

/-- The events of a tick. -/
def tickEvents (m : Machine) : List Event :=
  if m.timers.expires m.config.timerDivider then [.soundEnded, .beep] else []

/-- Ends a step that succeeds, after the events so far, with a tick. -/
def finish (m : Machine) (events : List Event) : Outcome :=
  ⟨m.tick, events ++ m.tickEvents, none⟩

/-- The step of a machine that waits for a key for the register `x`. -/
def resume (m : Machine) (x : Nibble) : Option Nibble → Outcome
  | none => ⟨m, [], none⟩
  | some key =>
    { (m.setReg x (UInt8.ofNat key.val)).advance with awaiting := none }.finish [.keyTaken key x]

/-- The step of a machine that has fetched a word. -/
def perform (m : Machine) (fresh : Option Nibble) (word : UInt16) : Outcome :=
  match Instruction.decode word with
  | none => ⟨m.advance, [], some (.unknownInstruction word)⟩
  | some instruction =>
    let announced := Event.executing (m.advance.counter - 2) word instruction
    match (execute fresh instruction).run m.advance with
    | .error fault left => ⟨left, [announced], some fault⟩
    | .ok _ after =>
      match after.awaiting with
      | some x => ⟨after, [announced, .waiting x after.counter], none⟩
      | none => after.finish [announced]

/-- The step of a machine that runs. -/
def proceed (m : Machine) (fresh : Option Nibble) : Outcome :=
  match m.memory.readWord m.counter with
  | .error fault => ⟨m, [], some fault⟩
  | .ok word => m.perform fresh word

/-- The machine with all pending key events applied. -/
def drained (m : Machine) : Machine := { m with keypad := m.keypad.poll.1 }

/-- The first fresh press among the pending key events. -/
def freshPress (m : Machine) : Option Nibble := m.keypad.poll.2

/-- One step. -/
def step (m : Machine) : Outcome :=
  match m.awaiting with
  | some x => m.drained.resume x m.freshPress
  | none => m.drained.proceed m.freshPress

end Machine

end Chip8
