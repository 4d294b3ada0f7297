import Chip8.Proofs.Effects
import Chip8.Proofs.StepCases

/-!
# What a step carries out

A step carries out an instruction if it finds the machine running and does not
fail. It ticks if it does not fail and leaves the machine running; this is so for
most steps that carry out an instruction, but also for the one that takes a key
for a suspended machine.

Results:

* `course`: a step stays where it is, takes a key, suspends the machine, or carries
  out an instruction to the end; only the second and the last tick.
* `leaves_step`, `timers_step`, `beeps_step`: what a step does to each part is determined by the
  instruction that it carries out and by whether it ticks.
* `keypad_step`: every step drains the keypad.
-/

namespace Chip8

/-- Whether a step succeeded and left the machine running. -/
def Outcome.ticked (o : Outcome) : Bool := o.fault.isNone && o.machine.awaiting.isNone

namespace Machine

/-- The instruction that the step of a machine carries out, if it carries one out. -/
def carriesOut (m : Machine) : Option Instruction :=
  if m.awaiting = none ∧ m.step.fault = none then
    (m.memory.readWord m.counter).toOption.bind Instruction.decode
  else none

variable {m : Machine}

theorem carriesOut_of_suspended {x : Nibble} (h : m.awaiting = some x) : m.carriesOut = none := by
  rw [carriesOut, if_neg]
  rintro ⟨running, -⟩
  rw [h] at running
  cases running

theorem carriesOut_of_fault {fault : Fault} (h : m.step.fault = some fault) :
    m.carriesOut = none := by
  rw [carriesOut, if_neg]
  rintro ⟨-, succeeded⟩
  rw [h] at succeeded
  cases succeeded

theorem carriesOut_of_fetch {word : UInt16} (running : m.awaiting = none)
    (fetch : m.memory.readWord m.counter = .ok word) (succeeded : m.step.fault = none) :
    m.carriesOut = Instruction.decode word := by
  rw [carriesOut, if_pos ⟨running, succeeded⟩, fetch]
  rfl

theorem carriesOut_of_clear {word : UInt16} {i : Instruction} (running : m.awaiting = none)
    (fetch : m.memory.readWord m.counter = .ok word) (decoded : Instruction.decode word = some i)
    (clear : i.obstacle m.stack m.index = none) : m.carriesOut = some i := by
  have succeeded : m.step.fault = none := by
    obtain ⟨after, ran, -⟩ := run_execute_of_clear (m := m.drained.advance) m.freshPress clear
    rw [step_fetched running fetch, perform, decoded]
    simp only [ran]
    split <;> rfl
  rw [carriesOut_of_fetch running fetch succeeded, decoded]

theorem of_carriesOut {i : Instruction} (h : m.carriesOut = some i) :
    m.awaiting = none ∧ m.step.fault = none ∧
      ∃ word, m.memory.readWord m.counter = .ok word ∧ Instruction.decode word = some i := by
  rw [carriesOut] at h
  split at h
  case isTrue both =>
    cases fetch : m.memory.readWord m.counter with
    | error fault =>
      rw [fetch] at h
      cases h
    | ok word =>
      rw [fetch] at h
      exact ⟨both.1, both.2, word, rfl, h⟩
  case isFalse => cases h

/-- An instruction that is carried out meets no obstacle. -/
theorem clear_of_carriesOut {i : Instruction} (h : m.carriesOut = some i) :
    i.obstacle m.stack m.index = none := by
  obtain ⟨running, succeeded, word, fetch, decoded⟩ := of_carriesOut h
  cases obstacle : i.obstacle m.stack m.index with
  | none => rfl
  | some fault =>
    rw [step_obstructed running fetch decoded obstacle] at succeeded
    cases succeeded

/-- The counter does not wrap where an instruction is carried out. -/
theorem toNat_counter_add_two {i : Instruction} (h : m.carriesOut = some i) :
    (m.counter + 2).toNat = m.counter.toNat + 2 := by
  obtain ⟨-, -, word, fetch, -⟩ := of_carriesOut h
  rw [Memory.readWord_eq] at fetch
  split at fetch
  case isTrue inside =>
    rw [UInt16.toNat_add]
    exact Nat.mod_eq_of_lt (Nat.lt_of_le_of_lt inside (by decide))
  case isFalse => cases fetch

/-! ## The courses of a step -/

/-- The courses that a step can take, with the instruction that it carries out and what it
    leaves. -/
inductive Course (m : Machine) : Option Instruction → Outcome → Prop
  /-- It fails, or goes on waiting for a key. -/
  | stay {counter : UInt16} {events : List Event} {fault : Option Fault}
      (silent : Event.beep ∉ events) (waits : fault = none → ∃ x, m.awaiting = some x) :
      Course m none ⟨{ m.drained with counter := counter }, events, fault⟩
  /-- It takes a key for a suspended machine. -/
  | take {x key : Nibble} {events : List Event} (silent : Event.beep ∉ events)
      (suspended : m.awaiting = some x) (fresh : m.freshPress = some key) :
      Course m none ({ (m.drained.setReg x (UInt8.ofNat key.val)).advance with
        awaiting := none }.finish events)
  /-- It suspends the machine. -/
  | suspend {x : Nibble} {events : List Event} (silent : Event.beep ∉ events)
      (fresh : m.freshPress = none) :
      Course m (some (.waitKey x)) ⟨{ m.drained with awaiting := some x }, events, none⟩
  /-- It carries out an instruction to the end. -/
  | complete {i : Instruction} {after : Machine} {events : List Event}
      (silent : Event.beep ∉ events)
      (ran : (execute m.freshPress i).run m.drained.advance = .ok () after)
      (still : after.awaiting = none) :
      Course m (some i) (after.finish events)

/-- There is no other way for a step to go. -/
theorem course (m : Machine) : m.Course m.carriesOut m.step := by
  have way := m.stepCase
  generalize outcome : m.step = o at way
  cases way with
  | idle suspended fresh =>
    rw [carriesOut_of_suspended suspended]
    exact .stay List.not_mem_nil fun _ => ⟨_, suspended⟩
  | resume suspended fresh =>
    rw [carriesOut_of_suspended suspended]
    exact .take (by simp) suspended fresh
  | unfetched running fetch =>
    rw [carriesOut_of_fault (congrArg Outcome.fault outcome)]
    exact .stay List.not_mem_nil nofun
  | unknown running fetch unknown =>
    rw [carriesOut_of_fault (congrArg Outcome.fault outcome)]
    exact .stay List.not_mem_nil nofun
  | obstructed running fetch decoded obstacle =>
    rw [carriesOut_of_fault (congrArg Outcome.fault outcome)]
    exact .stay (by simp) nofun
  | suspend running fetch decoded fresh =>
    rw [carriesOut_of_fetch running fetch (congrArg Outcome.fault outcome), decoded]
    exact .suspend (by simp) fresh
  | complete running fetch decoded clear ran still =>
    rw [carriesOut_of_fetch running fetch (congrArg Outcome.fault outcome), decoded]
    exact .complete (by simp) ran still

/-- What is left where an instruction is carried out that cannot suspend the machine. -/
theorem exists_of_carriesOut {i : Instruction} (done : m.carriesOut = some i)
    (goesOn : i.awaits none = none) :
    ∃ after, (execute m.freshPress i).run m.drained.advance = .ok () after ∧
      after.awaiting = none ∧ m.step.machine = after.tick := by
  have course := m.course
  rw [done] at course
  generalize m.step = outcome at course
  cases course with
  | suspend => cases goesOn
  | complete silent ran still => exact ⟨_, ran, still, rfl⟩

theorem ticked_of_stay {counter : UInt16} {events : List Event} {fault : Option Fault}
    (waits : fault = none → ∃ x, m.awaiting = some x) :
    (Outcome.mk { m.drained with counter := counter } events fault).ticked = false := by
  cases fault with
  | some fault => rfl
  | none =>
    obtain ⟨x, suspended⟩ := waits rfl
    show m.awaiting.isNone = false
    rw [suspended]
    rfl

theorem ticked_finish {events : List Event} (still : m.awaiting = none) :
    (m.finish events).ticked = true := by
  show m.awaiting.isNone = true
  rw [still]
  rfl

theorem ticked_of_carriesOut {i : Instruction} (done : m.carriesOut = some i)
    (goesOn : i.awaits none = none) : m.step.ticked = true := by
  have course := m.course
  rw [done] at course
  generalize m.step = outcome at course
  cases course with
  | suspend => cases goesOn
  | complete silent ran still => exact ticked_finish still

/-! ## Part by part -/

/-- What a step leaves of each part of a machine that its tick does not change, where `done` is the
    instruction that it carries out, if it carries one out. -/
structure StepLeaves (m : Machine) (done : Option Instruction) (after : Machine) : Prop where
  config : after.config = m.config
  keypad : after.keypad = m.keypad.poll.1
  stack : done.elim (after.stack = m.stack) (m.advance.StackAfter after)
  memory : after.memory = done.elim m.memory m.memoryAfter
  index : after.index = done.elim m.index m.indexAfter
  display : after.display = done.elim m.display m.displayAfter
  redraw : after.redraw = done.elim m.redraw m.redrawAfter
  generator : after.generator = done.elim m.generator m.generatorAfter

/-- A step that carries nothing out keeps all of these parts but the keypad, which it drains. -/
theorem leaves_step (m : Machine) : m.StepLeaves m.carriesOut m.step.machine := by
  have course := m.course
  generalize m.step = outcome, m.carriesOut = done at course
  cases course with
  | stay | take | suspend => exact ⟨rfl, rfl, rfl, rfl, rfl, rfl, rfl, rfl⟩
  | complete silent ran still =>
    have left := leaves_of_execute ran
    exact ⟨left.config, left.keypad, left.stack, left.memory, left.index, left.display,
      left.redraw, left.generator⟩

theorem config_step (m : Machine) : m.step.machine.config = m.config := m.leaves_step.config

theorem stack_step (m : Machine) :
    m.carriesOut.elim (m.step.machine.stack = m.stack) (m.advance.StackAfter m.step.machine) :=
  m.leaves_step.stack

theorem memory_step (m : Machine) :
    m.step.machine.memory = m.carriesOut.elim m.memory m.memoryAfter := m.leaves_step.memory

theorem display_step (m : Machine) :
    m.step.machine.display = m.carriesOut.elim m.display m.displayAfter := m.leaves_step.display

theorem redraw_step (m : Machine) :
    m.step.machine.redraw = m.carriesOut.elim m.redraw m.redrawAfter := m.leaves_step.redraw

theorem generator_step (m : Machine) :
    m.step.machine.generator = m.carriesOut.elim m.generator m.generatorAfter :=
  m.leaves_step.generator

/-- Whatever the course of a step, it applies all events that were pending, each once and the oldest
    first. -/
theorem keypad_step (m : Machine) :
    m.step.machine.keypad = ⟨m.keypad.pending.foldl HeldKeys.apply m.keypad.held, []⟩ := by
  rw [m.leaves_step.keypad, Keypad.poll, HeldKeys.drain_eq_foldl]

/-- The registers that a step leaves are those of the instruction that it carries out. -/
theorem registers_of_run {i : Instruction} {after : Machine} (done : m.carriesOut = some i)
    (goesOn : i.awaits none = none)
    (ran : (execute m.freshPress i).run m.drained.advance = .ok () after) :
    m.step.machine.registers = after.registers := by
  obtain ⟨_, ran', -, left⟩ := exists_of_carriesOut done goesOn
  rw [ran] at ran'
  cases ran'
  rw [left]
  rfl

/-- The timers that the tick of a step finds, after an instruction that may have set them. -/
def timersFound (m : Machine) : Timers := m.carriesOut.elim m.timers m.timersAfter

/-- A step that sets a timer sets it before the tick. -/
theorem timers_step (m : Machine) :
    m.step.machine.timers =
      if m.step.ticked then m.timersFound.tick m.config.timerDivider else m.timers := by
  have course := m.course
  rw [timersFound]
  generalize m.step = outcome, m.carriesOut = done at course
  cases course with
  | stay silent waits =>
    rw [ticked_of_stay waits]
    rfl
  | take | suspend => rfl
  | complete silent ran still =>
    have left := leaves_of_execute ran
    rw [ticked_finish still]
    show Timers.tick _ _ = Timers.tick _ _
    rw [left.timers, left.config]
    rfl

/-- A step beeps iff its tick ends the sound, and then once. -/
theorem beeps_step (m : Machine) :
    m.step.beeps =
      if m.step.ticked ∧ m.timersFound.expires m.config.timerDivider then 1 else 0 := by
  have course := m.course
  rw [timersFound]
  generalize m.step = outcome, m.carriesOut = done at course
  cases course with
  | stay silent waits =>
    rw [ticked_of_stay waits, if_neg (by simp)]
    exact List.count_eq_zero.mpr silent
  | suspend silent fresh => exact List.count_eq_zero.mpr silent
  | take silent suspended fresh =>
    rw [ticked_finish rfl, beeps_finish _ _ silent]
    simp only [true_and]
    rfl
  | complete silent ran still =>
    have left := leaves_of_execute ran
    rw [ticked_finish still, beeps_finish _ _ silent, left.timers, left.config]
    simp only [true_and]
    rfl

end Machine

end Chip8
