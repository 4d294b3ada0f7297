import Chip8.Proofs.Effects

/-!
# A program and its surroundings

Most parts of a machine are a program's own. The keys and the timers are not, since
keys are pressed from outside and timers go down by themselves. Four instructions
alone look at them.

Results:

* `eq_within`: a machine is its interior, its surroundings, and whether it waits for a key.
* `run_execute_within`: an instruction does not look at the seed and at the divider,
  and unless it is one of the four, not at the keys and at the timers either.
-/

namespace Chip8

/-- The parts of a machine that are a program's own, and the choices that bear on them. -/
structure Interior where
  memory : Memory
  registers : Registers
  index : UInt16
  counter : UInt16
  stack : CallStack
  display : Display
  redraw : Bool
  generator : Generator
  leftShiftFlag : LeftShiftFlag
  edge : EdgeRule

/-- The parts of a machine that are not a program's own. -/
structure Surroundings where
  seed : Option UInt64
  timerDivider : UInt8
  timers : Timers
  keypad : Keypad

/-- Whether an instruction looks at a timer or at the keys. -/
def Instruction.looksAround : Instruction → Bool
  | .loadDelay _ => true
  | .waitKey _ => true
  | .skip (.keyDown _) => true
  | .skip (.keyUp _) => true
  | _ => false

namespace Machine

variable {m m' after : Machine} {fresh : Option Nibble} {i : Instruction} {o : Surroundings}

/-- The interior of a machine. -/
def interior (m : Machine) : Interior where
  memory := m.memory
  registers := m.registers
  index := m.index
  counter := m.counter
  stack := m.stack
  display := m.display
  redraw := m.redraw
  generator := m.generator
  leftShiftFlag := m.config.leftShiftFlag
  edge := m.config.edge

/-- The surroundings of a machine. -/
def surroundings (m : Machine) : Surroundings where
  seed := m.config.seed
  timerDivider := m.config.timerDivider
  timers := m.timers
  keypad := m.keypad

/-- The machine with other surroundings. -/
def within (o : Surroundings) (m : Machine) : Machine :=
  { m with
    config := { m.config with seed := o.seed, timerDivider := o.timerDivider }
    timers := o.timers
    keypad := o.keypad }

theorem interior_within (o : Surroundings) (m : Machine) : (m.within o).interior = m.interior := rfl

/-- Two machines of one interior differ in their surroundings alone. -/
theorem eq_within (same : m'.interior = m.interior) (waits : m'.awaiting = m.awaiting) :
    m' = m.within m'.surroundings := by
  obtain ⟨⟨_, _, _, _⟩, _⟩ := m
  obtain ⟨⟨_, _, _, _⟩, _⟩ := m'
  cases same
  cases waits
  rfl

/-- What a command leaves, if it is a machine with other surroundings. -/
def resultWithin (o : Surroundings) {α : Type} :
    EStateM.Result Fault Machine α → EStateM.Result Fault Machine α
  | .ok a m => .ok a (m.within o)
  | .error fault m => .error fault (m.within o)

theorem surroundings_of_execute (ran : (execute fresh i).run m = .ok () after) :
    after.surroundings = { m.surroundings with timers := m.timersAfter i } := by
  have left := leaves_of_execute ran
  rw [surroundings, left.config, left.timers, left.keypad]
  rfl

theorem holds_within {condition : Condition}
    (alike : (Instruction.skip condition).looksAround = true → o.keypad = m.keypad) :
    (m.within o).holds condition = m.holds condition := by
  cases condition with
  | keyDown x =>
    show o.keypad.isDown _ = m.keypad.isDown _
    rw [alike rfl]
    rfl
  | keyUp x =>
    show (!o.keypad.isDown _) = !m.keypad.isDown _
    rw [alike rfl]
    rfl
  | _ => rfl

theorem run_storeAtIndex_within (o : Surroundings) (m : Machine) (bytes : List UInt8) :
    (storeAtIndex bytes).run (m.within o) = resultWithin o ((storeAtIndex bytes).run m) := by
  rw [run_storeAtIndex, run_storeAtIndex, show (m.within o).index = m.index from rfl]
  cases Memory.storeFault m.index bytes.length <;> rfl

/-- An instruction does in other surroundings what it does in its own, if it does not look around
    or if it finds there the same timers and keys. It takes its own setting of a timer with it. -/
theorem run_execute_within (o : Surroundings) (m : Machine) (fresh fresh' : Option Nibble)
    (i : Instruction) (alike : i.looksAround = true →
      o.timers = m.timers ∧ o.keypad = m.keypad ∧ fresh' = fresh) :
    (execute fresh' i).run (m.within o) =
      resultWithin { o with timers := (m.within o).timersAfter i } ((execute fresh i).run m) := by
  have stack : (m.within o).stack = m.stack := rfl
  have index : (m.within o).index = m.index := rfl
  cases i with
  | «return» =>
    rw [execute, execute, EStateM.run_bind, EStateM.run_bind, onStack, run_zoom, run_zoom, stack]
    cases CallStack.pop.run m.stack <;> rfl
  | call target =>
    rw [execute, execute, run_get_bind, run_get_bind, EStateM.run_bind, EStateM.run_bind, onStack,
      onStack, run_zoom, run_zoom, stack, show (m.within o).counter = m.counter from rfl]
    cases (CallStack.push m.counter).run m.stack <;> rfl
  | skip condition =>
    show EStateM.Result.ok () (if (m.within o).holds condition then _ else _) =
      EStateM.Result.ok () (within _ (if m.holds condition then _ else _))
    rw [holds_within fun looks => (alike looks).2.1]
    split <;> rfl
  | loadDelay x =>
    show EStateM.Result.ok () ((m.within o).setReg x o.timers.delay) =
      EStateM.Result.ok () ((m.setReg x m.timers.delay).within o)
    rw [(alike rfl).1]
    rfl
  | waitKey x =>
    obtain ⟨-, -, rfl⟩ := alike rfl
    cases fresh' <;> rfl
  | draw x y n =>
    rw [execute, execute, EStateM.run_bind, EStateM.run_bind, run_loadFromIndex, run_loadFromIndex,
      index]
    cases Memory.accessFault m.index n.val <;> rfl
  | loadRegisters x =>
    rw [execute, execute, EStateM.run_bind, EStateM.run_bind, run_loadFromIndex, run_loadFromIndex,
      index]
    cases Memory.accessFault m.index (x.val + 1) <;> rfl
  | storeDecimal x | storeRegisters x =>
    rw [execute, execute, run_get_bind, run_get_bind]
    exact run_storeAtIndex_within o m _
  | _ => rfl

end Machine

end Chip8
