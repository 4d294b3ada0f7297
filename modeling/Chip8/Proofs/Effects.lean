import Chip8.Proofs.Obstacle

/-!
# What an instruction leaves

Each part of a machine is changed by few instructions only. What an instruction
leaves of the call stack and of the display, for instance, is said here part by
part, so that what a run of instructions does to one part can be told without
the others. Registers and the counter, which most instructions change, are left out.

Results:

* `of_run_return`, `of_run_call`, `of_run_draw`, `of_run_loadRegisters`,
  `of_run_storeAtIndex`: what an instruction that can fail leaves when it does not.
* `leaves_of_execute`: what every instruction leaves of each part.
-/

namespace Chip8.Machine

variable {m after : Machine} {fresh : Option Nibble}

/-! ## The instructions that can fail -/

/-- The bytes of the sprite of `n` rows at I. -/
def spriteRows (m : Machine) (n : Nibble) : List UInt8 :=
  (List.range' m.index.toNat n.val).map m.memory.byteAt

theorem length_spriteRows_le (m : Machine) (n : Nibble) :
    (m.spriteRows n).length ≤ displayHeight := by
  have low : n.val < 16 := n.isLt
  rw [spriteRows, List.length_map, List.length_range', displayHeight]
  omega

/-- A return takes the counter from the top of the stack. -/
theorem of_run_return (ran : (execute fresh .return).run m = .ok () after) :
    ∃ target stack, m.stack.toList = stack.toList ++ [target] ∧
      after = { m with stack := stack, counter := target } := by
  rw [execute, EStateM.run_bind, onStack, run_zoom] at ran
  cases popped : CallStack.pop.run m.stack with
  | error fault stack =>
    rw [popped] at ran
    cases ran
  | ok target stack =>
    rw [popped] at ran
    cases ran
    exact ⟨target, stack, CallStack.toList_of_run_pop popped, rfl⟩

/-- The counter that is kept already points behind the call. -/
theorem of_run_call {target : Address} (ran : (execute fresh (.call target)).run m = .ok () after) :
    ∃ stack, stack.toList = m.stack.toList ++ [m.counter] ∧
      after = { m with stack := stack, counter := Word.ofAddress target } := by
  rw [execute, run_get_bind, EStateM.run_bind, onStack, run_zoom] at ran
  cases pushed : (CallStack.push m.counter).run m.stack with
  | error fault stack =>
    rw [pushed] at ran
    cases ran
  | ok _ stack =>
    rw [pushed] at ran
    cases ran
    exact ⟨stack, CallStack.toList_of_run_push pushed, rfl⟩

theorem of_run_draw {x y n : Nibble} (ran : (execute fresh (.draw x y n)).run m = .ok () after) :
    let drawn := m.display.draw m.config.edge (Sprite.origin (m.reg x) (m.reg y)) (m.spriteRows n)
    after =
      { m with display := drawn.1, redraw := true, registers := m.registers.setFlag drawn.2 } := by
  rw [execute, EStateM.run_bind, run_loadFromIndex] at ran
  cases fault : Memory.accessFault m.index n.val with
  | some _ =>
    rw [fault] at ran
    cases ran
  | none =>
    rw [fault] at ran
    cases ran
    rfl

theorem of_run_loadRegisters {x : Nibble}
    (ran : (execute fresh (.loadRegisters x)).run m = .ok () after) :
    after = { m with registers :=
      m.registers.restore ((List.range' m.index.toNat (x.val + 1)).map m.memory.byteAt) } := by
  rw [execute, EStateM.run_bind, run_loadFromIndex] at ran
  cases fault : Memory.accessFault m.index (x.val + 1) with
  | some _ =>
    rw [fault] at ran
    cases ran
  | none =>
    rw [fault] at ran
    cases ran
    rfl

/-- I stays where it is. -/
theorem of_run_storeAtIndex {bytes : List UInt8}
    (ran : (storeAtIndex bytes).run m = .ok () after) :
    after = { m with memory := m.memory.overwrite m.index.toNat bytes } := by
  rw [run_storeAtIndex] at ran
  cases fault : Memory.storeFault m.index bytes.length with
  | some _ =>
    rw [fault] at ran
    cases ran
  | none =>
    rw [fault] at ran
    cases ran
    rfl

/-! ## Part by part -/

/-- A call puts the counter on top of the call stack, a return takes it from there. -/
def StackAfter (m after : Machine) : Instruction → Prop
  | .call _ => after.stack.toList = m.stack.toList ++ [m.counter]
  | .return => m.stack.toList = after.stack.toList ++ [after.counter]
  | _ => after.stack = m.stack

/-- The memory after an instruction. -/
def memoryAfter (m : Machine) : Instruction → Memory
  | .storeDecimal x => m.memory.overwrite m.index.toNat (decimalDigits (m.reg x))
  | .storeRegisters x => m.memory.overwrite m.index.toNat (m.registers.upTo x)
  | _ => m.memory

/-- I after an instruction. -/
def indexAfter (m : Machine) : Instruction → UInt16
  | .loadIndex target => Word.ofAddress target
  | .addIndex x => m.index + (m.reg x).toUInt16
  | .loadGlyph x => Glyphs.address (Fin.ofNat 16 (m.reg x).toNat)
  | _ => m.index

/-- The display after an instruction. -/
def displayAfter (m : Machine) : Instruction → Display
  | .clearScreen => .blank
  | .draw x y n =>
    (m.display.draw m.config.edge (Sprite.origin (m.reg x) (m.reg y)) (m.spriteRows n)).1
  | _ => m.display

/-- Whether the display was drawn to, after an instruction. -/
def redrawAfter (m : Machine) : Instruction → Bool
  | .clearScreen => true
  | .draw _ _ _ => true
  | _ => m.redraw

/-- The timers after an instruction and before the tick that follows it. -/
def timersAfter (m : Machine) : Instruction → Timers
  | .setDelay x => { m.timers with delay := m.reg x }
  | .setSound x => { m.timers with sound := m.reg x }
  | _ => m.timers

/-- The generator after an instruction. -/
def generatorAfter (m : Machine) : Instruction → Generator
  | .random _ _ => m.generator.advance
  | _ => m.generator

/-- What an instruction leaves of each part of a machine. -/
structure Leaves (m : Machine) (i : Instruction) (after : Machine) : Prop where
  config : after.config = m.config
  keypad : after.keypad = m.keypad
  stack : m.StackAfter after i
  memory : after.memory = m.memoryAfter i
  index : after.index = m.indexAfter i
  display : after.display = m.displayAfter i
  redraw : after.redraw = m.redrawAfter i
  timers : after.timers = m.timersAfter i
  generator : after.generator = m.generatorAfter i

/-- What an instruction leaves of each part, all instructions in one statement. -/
theorem leaves_of_execute {i : Instruction} (ran : (execute fresh i).run m = .ok () after) :
    m.Leaves i after := by
  cases i with
  | «return» =>
    obtain ⟨target, stack, popped, rfl⟩ := of_run_return ran
    exact ⟨rfl, rfl, popped, rfl, rfl, rfl, rfl, rfl, rfl⟩
  | call target =>
    obtain ⟨stack, pushed, rfl⟩ := of_run_call ran
    exact ⟨rfl, rfl, pushed, rfl, rfl, rfl, rfl, rfl, rfl⟩
  | draw x y n =>
    obtain rfl := of_run_draw ran
    exact ⟨rfl, rfl, rfl, rfl, rfl, rfl, rfl, rfl, rfl⟩
  | loadRegisters x =>
    obtain rfl := of_run_loadRegisters ran
    exact ⟨rfl, rfl, rfl, rfl, rfl, rfl, rfl, rfl, rfl⟩
  | storeDecimal x | storeRegisters x =>
    rw [execute, run_get_bind] at ran
    obtain rfl := of_run_storeAtIndex ran
    exact ⟨rfl, rfl, rfl, rfl, rfl, rfl, rfl, rfl, rfl⟩
  | skip condition =>
    cases ran
    show m.Leaves (.skip condition) (if m.holds condition then m.advance else m)
    split <;> exact ⟨rfl, rfl, rfl, rfl, rfl, rfl, rfl, rfl, rfl⟩
  | waitKey x =>
    cases fresh <;> cases ran <;> exact ⟨rfl, rfl, rfl, rfl, rfl, rfl, rfl, rfl, rfl⟩
  | _ =>
    cases ran
    exact ⟨rfl, rfl, rfl, rfl, rfl, rfl, rfl, rfl, rfl⟩

end Chip8.Machine
