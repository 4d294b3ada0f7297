import Chip8.Machine.History
import Chip8.Proofs.StepCases

/-!
# Busy waiting

A machine that cannot be suspended: as long as no key is pressed it executes the
instruction that waits for one over and over again, each time with the counter
put back. The flag `Machine.awaiting` only spares a suspended machine the fetch,
so nobody can tell the two machines apart, unless a program is loaded over the
instruction that waits.

Results:

* `Parked.step`, `Parked.act`: while a machine is suspended, its counter is at the
  instruction that suspended it.
* `busy_step`: a step of either machine does the same.
* `busy_after_of_undisturbed`: so does every history without such a load.
-/

namespace Chip8

/-! ## The busy machine -/

/-- The state of a machine that cannot be suspended. -/
structure BusyMachine where
  config : Config
  memory : Memory
  registers : Registers
  index : UInt16
  counter : UInt16
  stack : CallStack
  display : Display
  redraw : Bool
  timers : Timers
  keypad : Keypad
  generator : Generator

/-- What a step of a busy machine leaves: the machine, the number of beeps, and the fault if it
    failed. -/
structure BusyOutcome where
  machine : BusyMachine
  beeps : Nat
  fault : Option Fault

/-- The machine without the flag that suspends it. -/
def Machine.busy (m : Machine) : BusyMachine where
  config := m.config
  memory := m.memory
  registers := m.registers
  index := m.index
  counter := m.counter
  stack := m.stack
  display := m.display
  redraw := m.redraw
  timers := m.timers
  keypad := m.keypad
  generator := m.generator

/-- What a step leaves but for the flag, and of its events only the beeps. -/
def Outcome.busy (o : Outcome) : BusyOutcome := ⟨o.machine.busy, o.beeps, o.fault⟩

namespace BusyMachine

/-- The busy machine as a machine that is not suspended. -/
def running (b : BusyMachine) : Machine where
  config := b.config
  memory := b.memory
  registers := b.registers
  index := b.index
  counter := b.counter
  stack := b.stack
  display := b.display
  redraw := b.redraw
  timers := b.timers
  keypad := b.keypad
  awaiting := none
  generator := b.generator

/-- Ends a step that succeeds with a tick. -/
def finish (b : BusyMachine) : BusyOutcome where
  machine := { b with timers := b.timers.tick b.config.timerDivider }
  beeps := if b.timers.expires b.config.timerDivider then 1 else 0
  fault := none

/-- Carries out an instruction with the counter behind it. One that waits for a key puts the counter
    back as long as there is none, and does not end with a tick then. -/
def perform (b : BusyMachine) (fresh : Option Nibble) : Instruction → BusyOutcome
  | .waitKey x =>
    match fresh with
    | some key => { b with registers := b.registers.set x (UInt8.ofNat key.val) }.finish
    | none => ⟨{ b with counter := b.counter - 2 }, 0, none⟩
  | i =>
    match (Machine.execute fresh i).run b.running with
    | .error fault left => ⟨left.busy, 0, some fault⟩
    | .ok _ after => after.busy.finish

/-- The step of a busy machine that has fetched a word. -/
def interpret (b : BusyMachine) (fresh : Option Nibble) (word : UInt16) : BusyOutcome :=
  let behind := { b with counter := b.counter + 2 }
  match Instruction.decode word with
  | none => ⟨behind, 0, some (.unknownInstruction word)⟩
  | some i => behind.perform fresh i

/-- One step, which always fetches. -/
def step (b : BusyMachine) : BusyOutcome :=
  let drained := { b with keypad := b.keypad.poll.1 }
  match b.memory.readWord b.counter with
  | .error fault => ⟨drained, 0, some fault⟩
  | .ok word => drained.interpret b.keypad.poll.2 word

/-- The busy machine after an action. All but the steps are those of a machine. -/
def act (b : BusyMachine) : Action → BusyMachine
  | .step => b.step.machine
  | a => (b.running.act a).busy

/-- The busy machine after all actions of a history, the first one first. -/
def after (b : BusyMachine) (history : List Action) : BusyMachine := history.foldl act b

theorem step_of_fetch_error {b : BusyMachine} {fault : Fault}
    (fetch : b.memory.readWord b.counter = .error fault) :
    b.step = ⟨{ b with keypad := b.keypad.poll.1 }, 0, some fault⟩ := by
  rw [step, fetch]

theorem step_of_fetch_ok {b : BusyMachine} {word : UInt16}
    (fetch : b.memory.readWord b.counter = .ok word) :
    b.step = { b with keypad := b.keypad.poll.1 }.interpret b.keypad.poll.2 word := by
  rw [step, fetch]

theorem interpret_of_decode {b : BusyMachine} {fresh : Option Nibble} {word : UInt16}
    {i : Instruction} (decoded : Instruction.decode word = some i) :
    b.interpret fresh word = { b with counter := b.counter + 2 }.perform fresh i := by
  rw [interpret, decoded]

theorem perform_of_ne_waitKey {b : BusyMachine} {fresh : Option Nibble} {i : Instruction}
    (other : ∀ x, i ≠ .waitKey x) :
    b.perform fresh i =
      match (Machine.execute fresh i).run b.running with
      | .error fault left => ⟨left.busy, 0, some fault⟩
      | .ok _ after => after.busy.finish := by
  cases i with
  | waitKey x => exact absurd rfl (other x)
  | _ => rfl

section Waiting

variable {b : BusyMachine} {word : UInt16} {x : Nibble}
  (fetch : b.memory.readWord b.counter = .ok word)
  (decoded : Instruction.decode word = some (.waitKey x))
include fetch decoded

/-- Without a key, executing the instruction that waits for one only drains the keypad. -/
theorem step_of_wait_none (fresh : b.keypad.poll.2 = none) :
    b.step = ⟨{ b with keypad := b.keypad.poll.1 }, 0, none⟩ := by
  have back : b.counter + 2 - 2 = b.counter := UInt16.add_sub_cancel _ _
  rw [step_of_fetch_ok fetch, interpret_of_decode decoded, fresh]
  show BusyOutcome.mk { b with keypad := _, counter := b.counter + 2 - 2 } 0 none = _
  rw [back]

theorem step_of_wait_some {key : Nibble} (fresh : b.keypad.poll.2 = some key) :
    b.step =
      { b with
        keypad := b.keypad.poll.1
        counter := b.counter + 2
        registers := b.registers.set x (UInt8.ofNat key.val) }.finish := by
  rw [step_of_fetch_ok fetch, interpret_of_decode decoded, fresh]
  rfl

end Waiting

end BusyMachine

namespace Machine

variable {m : Machine}

theorem running_busy (h : m.awaiting = none) : m.busy.running = m := by
  obtain ⟨⟩ := m
  cases h
  rfl

theorem busy_finish (m : Machine) (events : List Event) (silent : Event.beep ∉ events) :
    (m.finish events).busy = m.busy.finish := by
  rw [Outcome.busy, beeps_finish m events silent]
  rfl

/-! ## The counter of a suspended machine -/

/-- If the machine is suspended, its counter is at the instruction that waits for the key. -/
def Parked (m : Machine) : Prop :=
  ∀ x, m.awaiting = some x → m.memory.readWord m.counter = .ok (Instruction.waitWord x)

theorem parked_of_running (h : m.awaiting = none) : m.Parked := by
  intro x suspended
  rw [h] at suspended
  cases suspended

/-- A machine that waits stands at the word that made it wait, as long as it waits. -/
theorem Parked.step (h : m.Parked) : m.step.machine.Parked := by
  have way := m.stepCase
  generalize m.step = outcome at way
  cases way with
  | idle suspended fresh => exact h
  | resume suspended fresh => exact parked_of_running rfl
  | unfetched running fetch => exact parked_of_running running
  | unknown running fetch unknown => exact parked_of_running running
  | obstructed running fetch decoded obstacle => exact parked_of_running running
  | complete running fetch decoded clear ran still => exact parked_of_running still
  | suspend running fetch decoded fresh =>
    rintro x ⟨⟩
    rw [← Instruction.eq_waitWord_of_decode decoded]
    exact fetch

/-! ## One step -/

theorem busy_step_of_ne_waitKey {word : UInt16} {i : Instruction} (running : m.awaiting = none)
    (fetch : m.memory.readWord m.counter = .ok word) (decoded : Instruction.decode word = some i)
    (other : ∀ x, i ≠ .waitKey x) :
    m.busy.step =
      match (execute m.freshPress i).run m.drained.advance with
      | .error fault left => ⟨left.busy, 0, some fault⟩
      | .ok _ after => after.busy.finish := by
  have same : m.drained.advance.busy.running = m.drained.advance := running_busy running
  rw [BusyMachine.step_of_fetch_ok fetch, BusyMachine.interpret_of_decode decoded,
    BusyMachine.perform_of_ne_waitKey other, ← same]
  rfl

theorem ne_waitKey_of_obstacle {i : Instruction} {stack : CallStack} {index : UInt16}
    {fault : Fault} (obstacle : i.obstacle stack index = some fault) (x : Nibble) :
    i ≠ .waitKey x := by
  rintro rfl
  cases obstacle

/-- One step of a machine that suspends is one step of the machine that executes the same word again
    and again. -/
theorem busy_step (h : m.Parked) : m.step.busy = m.busy.step := by
  have way := m.stepCase
  generalize m.step = outcome at way
  cases way with
  | idle suspended fresh =>
    have decoded := Instruction.decode_waitWord
    rw [BusyMachine.step_of_wait_none (b := m.busy) (h _ suspended) (decoded _) fresh]
    rfl
  | resume suspended fresh =>
    have decoded := Instruction.decode_waitWord
    rw [BusyMachine.step_of_wait_some (b := m.busy) (h _ suspended) (decoded _) fresh,
      busy_finish _ _ (by simp)]
    rfl
  | unfetched running fetch =>
    rw [BusyMachine.step_of_fetch_error fetch]
    rfl
  | unknown running fetch unknown =>
    rw [BusyMachine.step_of_fetch_ok fetch, BusyMachine.interpret, unknown]
    rfl
  | obstructed running fetch decoded obstacle =>
    rw [busy_step_of_ne_waitKey running fetch decoded (ne_waitKey_of_obstacle obstacle),
      run_execute_of_obstacle (m := m.drained.advance) _ obstacle]
    rfl
  | suspend running fetch decoded fresh =>
    rw [BusyMachine.step_of_wait_none (b := m.busy) fetch decoded fresh]
    rfl
  | @complete word i after running fetch decoded clear ran still =>
    rw [busy_finish _ _ (by simp)]
    by_cases waits : ∃ x, i = .waitKey x
    · obtain ⟨x, rfl⟩ := waits
      -- had there been no key, the instruction would have suspended the machine
      cases fresh : m.freshPress with
      | none =>
        rw [fresh] at ran
        cases ran
        cases still
      | some key =>
        rw [fresh] at ran
        cases ran
        rw [BusyMachine.step_of_wait_some (b := m.busy) fetch decoded fresh]
        rfl
    · have other : ∀ x, i ≠ .waitKey x := not_exists.mp waits
      rw [busy_step_of_ne_waitKey running fetch decoded other, ran]

/-! ## Histories -/

/-- No program is loaded while the machine is suspended; one that is too large is not loaded. -/
def Undisturbed (m : Machine) (history : List Action) : Prop :=
  ∀ earlier program, earlier ++ [.load program] <+: history →
    program.length ≤ maxProgramSize → (m.after earlier).awaiting = none

theorem Undisturbed.head {program : List UInt8} {history : List Action}
    (h : m.Undisturbed (.load program :: history)) (fits : program.length ≤ maxProgramSize) :
    m.awaiting = none :=
  h [] program ⟨history, rfl⟩ fits

theorem Undisturbed.tail {a : Action} {history : List Action}
    (h : m.Undisturbed (a :: history)) : (m.act a).Undisturbed history := by
  rintro earlier program ⟨later, rfl⟩ fits
  exact h (a :: earlier) program ⟨later, rfl⟩ fits

/-- Nothing but a program loaded over the instruction can part the counter from it. -/
theorem Parked.act (h : m.Parked) {a : Action} {history : List Action}
    (undisturbed : m.Undisturbed (a :: history)) : (m.act a).Parked := by
  cases a with
  | load program =>
    rw [act_load]
    by_cases fits : program.length ≤ maxProgramSize
    · rw [if_pos fits]
      exact parked_of_running (undisturbed.head fits)
    · rw [if_neg fits]
      exact h
  | send e => exact h
  | step => exact h.step
  | takeRedraw => exact h

theorem busy_act (h : m.Parked) (a : Action) : (m.act a).busy = m.busy.act a := by
  cases a with
  | load program =>
    show _ = (m.busy.running.act (.load program)).busy
    rw [act_load, act_load]
    split <;> rfl
  | send e => rfl
  | step =>
    show m.step.busy.machine = m.busy.step.machine
    rw [busy_step h]
  | takeRedraw => rfl

theorem busy_after (h : m.Parked) {history : List Action} (undisturbed : m.Undisturbed history) :
    (m.after history).busy = m.busy.after history ∧ (m.after history).Parked := by
  induction history generalizing m with
  | nil => exact ⟨rfl, h⟩
  | cons a history ih =>
    have next := ih (h.act undisturbed) undisturbed.tail
    rw [busy_act h] at next
    exact next

/-- Whatever was done to a machine that was not suspended at first, and to its busy double, if no
    program was loaded while the machine was suspended then both are in the same state, their next
    steps leave the same, and while the machine is suspended its counter is at the instruction that
    waits for the key. -/
theorem busy_after_of_undisturbed {m : Machine} {history : List Action}
    (running : m.awaiting = none) (undisturbed : m.Undisturbed history) :
    (m.after history).busy = m.busy.after history ∧
      (m.after history).step.busy = (m.busy.after history).step ∧
      ∀ x, (m.after history).awaiting = some x →
        (m.after history).memory.readWord (m.after history).counter =
          .ok (Nibbles.toWord ⟨0xF, x, 0x0, 0xA⟩) := by
  obtain ⟨same, parked⟩ := busy_after (parked_of_running running) undisturbed
  refine ⟨same, ?_, parked⟩
  rw [← same]
  exact busy_step parked

/-- A machine that waits for a key for V3, and a key that it has not seen yet. -/
theorem busy_after_of_undisturbed_waiting :
    let m := started [0xF3, 0x0A]
    let history := [Action.step, .send (.press 7)]
    m.awaiting = none ∧ m.Undisturbed history ∧ (m.after history).awaiting = some 3 ∧
      (m.after history).busy = m.busy.after history ∧
      (m.after history).step.busy = (m.busy.after history).step := by
  intro m history
  have running : m.awaiting = none := rfl
  have fetch : m.memory.readWord m.counter = .ok 0xF30A := readWord_started 0xF30A
  have decoded : Instruction.decode 0xF30A = some (.waitKey 3) := by decide
  have fresh : m.freshPress = none := rfl
  -- what follows needs no more of the machine than these facts
  clear_value m
  have undisturbed : m.Undisturbed history := by
    intro earlier program loaded
    have mem : Action.load program ∈ [Action.step, .send (.press 7)] :=
      loaded.subset (List.mem_append_right _ (.head _))
    cases mem with
    | tail _ mem => cases mem with
      | tail _ mem => cases mem
  have suspended : (m.after history).awaiting = some 3 := by
    rw [after, List.foldl_cons, List.foldl_cons, act, act, step_suspend running fetch decoded fresh]
    rfl
  obtain ⟨same, sameStep, -⟩ := busy_after_of_undisturbed running undisturbed
  exact ⟨running, undisturbed, suspended, same, sameStep⟩

end Machine

end Chip8
