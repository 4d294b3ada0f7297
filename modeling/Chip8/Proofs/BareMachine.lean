import Chip8.Machine.Step
import Chip8.Proofs.Bare

/-!
# The machine in bare numbers

A `BareMachine` is a machine that is made of bytes, words and arrays only. It names
registers and keys by bytes, finds its operands by masking the word that it has
fetched, and does all arithmetic that could fail with the checked operations. So it
stops at the first operation that is not defined, whereas the types of a `Machine`
leave no room for such an operation.

What fails on the way leaves the machine as it was made by then, as it is with
commands to a `Machine`.
-/

namespace Chip8

open Checked

/-- The state of a machine in bare numbers. -/
structure BareMachine where
  config : Config
  cells : Cells
  registers : Vector UInt8 registerCount
  index : UInt16
  counter : UInt16
  slots : Vector UInt16 stackDepth
  /-- The number of slots in use. -/
  depth : Nat
  pixels : Vector Color (displayWidth * displayHeight)
  redraw : Bool
  timers : Timers
  down : Vector Bool keyCount
  pending : List BareEvent
  /-- The register that is to take a key, while the machine is suspended. -/
  awaiting : Option UInt8
  generator : Generator

namespace BareMachine

/-- What is done to a machine in place. -/
abbrev Command (α : Type) : Type := EStateM Stop BareMachine α

/-- The value of a register. -/
def register (x : UInt8) : Command UInt8 := do
  ofExcept (entry (← get).registers.toList x.toNat)

/-- Replaces the value of a register. -/
def setRegister (x value : UInt8) : Command Unit := do
  let registers ← ofExcept (replace (← get).registers x.toNat value)
  modify fun b => { b with registers }

/-- Whether the key named by the low nibble of a byte is down. -/
def isDown (key : UInt8) : Command Bool := do
  ofExcept (entry (← get).down.toList (key &&& 0xF).toNat)

/-- Puts the outcome of an operation into a register, and then its flag, if any, into VF. -/
def compute (x y : UInt8) (operation : UInt8 → UInt8 → Computed) : Command Unit := do
  let outcome := operation (← register x) (← register y)
  setRegister x outcome.value
  match outcome.flag with
  | none => return ()
  | some b => setRegister 15 (if b then 1 else 0)

/-- Moves the counter to an address. -/
def goTo (target : UInt16) : Command Unit := modify fun b => { b with counter := target }

/-- Moves the counter on by one instruction. -/
def advance : Command Unit := modify fun b => { b with counter := b.counter + 2 }

/-- Stores an address above the others. -/
def push (address : UInt16) : Command Unit := do
  let b ← get
  if b.depth = stackDepth then throw (.fault .stackOverflow)
  else
    let slots ← ofExcept (replace b.slots b.depth address)
    let depth ← ofExcept (sum lengthLimit b.depth 1)
    set { b with slots, depth }

/-- Takes the address stored last. -/
def pop : Command UInt16 := do
  let b ← get
  if b.depth = 0 then throw (.fault .stackUnderflow)
  else
    let depth ← ofExcept (difference b.depth 1)
    set { b with depth }
    ofExcept (entry b.slots.toList depth)

/-- Stores bytes at I. -/
def storeAtIndex (bytes : List UInt8) : Command Unit := do
  let b ← get
  let cells ← ofExcept (store b.cells b.index bytes)
  set { b with cells }

/-- The bytes of `length` cells from I on. -/
def loadFromIndex (length : Nat) : Command (List UInt8) := do
  let b ← get
  ofExcept (readSlice b.cells b.index length)

/-- Whether a condition holds of the registers that a word names. -/
def holds (o : Opcode) : Condition → Command Bool
  | .equalValue _ _ => return (← register o.x) == o.byte
  | .notEqualValue _ _ => return (← register o.x) != o.byte
  | .equalRegister _ _ => return (← register o.x) == (← register o.y)
  | .notEqualRegister _ _ => return (← register o.x) != (← register o.y)
  | .keyDown _ => do isDown (← register o.x)
  | .keyUp _ => return !(← isDown (← register o.x))

/-- Draws a sprite of `n` rows. -/
def draw (x y n : UInt8) : Command Unit := do
  let originX := (← register x).toNat % displayWidth
  let originY := (← register y).toNat % displayHeight
  let rows ← loadFromIndex n.toNat
  let b ← get
  let drawn ← ofExcept (Bare.drawRows b.config.edge originX originY 0 (b.pixels, false) rows)
  set { b with pixels := drawn.1 }
  setRegister 15 (if drawn.2 then 1 else 0)
  modify fun b => { b with redraw := true }

/-- Carries out an instruction. What is to be done is told by the instruction, but to which
    registers and with which numbers by the nibbles of its word. -/
def execute (fresh : Option UInt8) (o : Opcode) (address : UInt16) : Instruction → Command Unit
  | .clearScreen => modify fun b => { b with pixels := .replicate _ .black, redraw := true }
  | .return => do goTo (← pop)
  | .jump _ => goTo address
  | .call _ => do
    push (← get).counter
    goTo address
  | .jumpOffset _ => do
    let target ← ofExcept (sum UInt16.size address.toNat (← register 0).toNat)
    goTo (UInt16.ofNat target)
  | .skip condition => do if ← holds o condition then advance
  | .loadValue _ _ => setRegister o.x o.byte
  | .addValue _ _ => do setRegister o.x ((← register o.x) + o.byte)
  | .combine operation _ _ => compute o.x o.y operation.compute
  | .shift direction _ => do
    let reported := (← get).config.leftShiftFlag
    compute o.x o.x fun v _ => direction.compute reported v
  | .random _ _ => do
    let generator := (← get).generator
    modify fun b => { b with generator := generator.advance }
    setRegister o.x (generator.drawByte &&& o.byte)
  | .loadIndex _ => modify fun b => { b with index := address }
  | .addIndex _ => do
    let v ← register o.x
    modify fun b => { b with index := b.index + v.toUInt16 }
  | .loadGlyph _ => do
    let v ← register o.x
    let place ← ofExcept (product UInt16.size (v &&& 0xF).toNat Glyphs.rows)
    let index ← ofExcept (sum UInt16.size Glyphs.offset place)
    modify fun b => { b with index := UInt16.ofNat index }
  | .draw _ _ _ => draw o.x o.y o.n
  | .loadDelay _ => do setRegister o.x (← get).timers.delay
  | .setDelay _ => do
    let v ← register o.x
    modify fun b => { b with timers := { b.timers with delay := v } }
  | .setSound _ => do
    let v ← register o.x
    modify fun b => { b with timers := { b.timers with sound := v } }
  | .waitKey _ =>
    match fresh with
    | some key => setRegister o.x key
    | none => modify fun b => { b with counter := b.counter - 2, awaiting := some o.x }
  | .storeDecimal _ => do storeAtIndex (decimalDigits (← register o.x))
  | .storeRegisters _ => do
    let stop ← ofExcept (sum lengthLimit o.x.toNat 1)
    storeAtIndex (← ofExcept (slice (← get).registers 0 stop))
  | .loadRegisters _ => do
    let stop ← ofExcept (sum lengthLimit o.x.toNat 1)
    let bytes ← loadFromIndex stop
    let registers ← ofExcept (copy (← get).registers 0 stop bytes)
    modify fun b => { b with registers }

/-- Ticks the timers. -/
def tick : Command Unit := do
  let b ← get
  let timers ← ofExcept (Bare.tick b.config.timerDivider b.timers)
  set { b with timers }

/-- Applies all pending key events, and reports the first fresh press. -/
def poll : Command (Option UInt8) := do
  let b ← get
  let (down, fresh) ← ofExcept (Bare.poll b.down none b.pending)
  set { b with down, pending := [] }
  return fresh

/-- What a running machine does with the word that it has fetched. -/
def perform (fresh : Option UInt8) (word : UInt16) : Command Unit := do
  let address ← ofExcept (Opcode.ofWord word).address
  let spelled ← ofExcept (Opcode.ofWord word).word
  match Instruction.decode word with
  | none => throw (.fault (.unknownInstruction spelled))
  | some instruction =>
    execute fresh (Opcode.ofWord word) address instruction
    if (← get).awaiting.isNone then tick

/-- One step. -/
def step : Command Unit := do
  let fresh ← poll
  match (← get).awaiting with
  | some x =>
    match fresh with
    | none => return ()
    | some key =>
      setRegister x key
      modify fun b => { b with awaiting := none }
      advance
      tick
  | none =>
    let b ← get
    let word ← ofExcept (readWord b.cells b.counter)
    advance
    perform fresh word

/-- Loads a program. -/
def load (program : List UInt8) : Command Unit := do
  let b ← get
  let cells ← ofExcept (writeSlice b.cells programOffset program)
  set { b with cells }

/-- Queues an event for the key that a byte names, or refuses it where the byte names none. -/
def send (key : UInt8) (event : BareEvent) : Command Unit :=
  modify fun b => if key &&& 0x0F = key then { b with pending := b.pending ++ [event] } else b

end BareMachine

/-- Something that is done to a machine in bare numbers. -/
inductive BareAction where
  | load (program : List UInt8) (sized : program.length < sliceLimit)
  | press (key : UInt8)
  | release (key : UInt8)
  | releaseAll
  | step
  | takeRedraw

namespace BareMachine

/-- A fresh machine. -/
def create (config : Config) (chance : Generator) : BareMachine where
  config := config
  cells := Memory.initial.cells
  registers := .replicate registerCount 0
  index := 0
  counter := programOffset
  slots := .replicate stackDepth 0
  depth := 0
  pixels := .replicate _ .black
  redraw := false
  timers := .stopped
  down := .replicate keyCount false
  pending := []
  awaiting := none
  generator := config.seed.elim chance .ofSeed

/-- What is done to a machine by an action. -/
def command : BareAction → Command Unit
  | .load program _ => load program
  | .press key => send key (.press key)
  | .release key => send key (.release key)
  | .releaseAll => modify fun b => { b with pending := b.pending ++ [.releaseAll] }
  | .step => step
  | .takeRedraw => modify fun b => { b with redraw := false }

/-- The machine after an action, and the fault if the action failed. There is no such machine if the
    action has stopped at an operation that is not defined. -/
def act (b : BareMachine) (a : BareAction) : Except Abort (BareMachine × Option Fault) :=
  match (command a).run b with
  | .ok _ after => .ok (after, none)
  | .error (.fault fault) left => .ok (left, some fault)
  | .error (.abort cause) _ => .error cause

/-- The machine after all actions of a history, the first one first. -/
def after (b : BareMachine) : List BareAction → Except Abort BareMachine
  | [] => .ok b
  | a :: history => do
    let (next, _) ← b.act a
    next.after history

end BareMachine

end Chip8
