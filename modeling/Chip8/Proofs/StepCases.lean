import Chip8.Machine.Step
import Chip8.Proofs.Obstacle

/-!
# The ways a step can go

A step of a suspended machine finds a fresh key press or not. A step of a running
machine finds a word to fetch or not, an instruction in it or not, and an obstacle
to it or not; an instruction that is carried out suspends the machine or ends the
step with a tick.

Results:

* `decode_waitWord`, `eq_waitWord_of_decode`: one word alone waits for a key for Vx.
* `step_idle`, `step_resume`, `step_unfetched`, `step_unknown`, `step_obstructed`,
  `step_suspend`, `step_complete`: what the step leaves, one statement for each way.
* `stepCase`: there is no other way.
-/

namespace Chip8

/-! ## The word that waits for a key -/

namespace Instruction

/-- Fx0A, the word of the instruction that waits for a key for the register `x`. -/
def waitWord (x : Nibble) : UInt16 := Nibbles.toWord ⟨0xF, x, 0x0, 0xA⟩

theorem decode_waitWord (x : Nibble) : decode (waitWord x) = some (.waitKey x) :=
  decode_encode (.waitKey x)

theorem eq_waitWord_of_decode {word : UInt16} {x : Nibble}
    (decoded : decode word = some (.waitKey x)) : word = waitWord x := by
  have spelled : Nibbles.ofWord word = ⟨0xF, x, 0x0, 0xA⟩ := spells_of_decode decoded
  rw [waitWord, ← spelled, Nibbles.toWord_ofWord]

end Instruction

namespace Machine

variable {m : Machine} {x : Nibble} {word : UInt16} {fault : Fault}

/-! ## The beeps of a tick -/

theorem beeps_finish (m : Machine) (events : List Event) (silent : Event.beep ∉ events) :
    (m.finish events).beeps =
      if m.timers.expires m.config.timerDivider then 1 else 0 := by
  show (events ++ m.tickEvents).count .beep = _
  rw [List.count_append, List.count_eq_zero.mpr silent, Nat.zero_add, tickEvents]
  split <;> rfl

/-! ## One statement for each way -/

theorem step_of_suspended (h : m.awaiting = some x) :
    m.step = m.drained.resume x m.freshPress := by
  rw [step, h]

theorem step_of_running (h : m.awaiting = none) : m.step = m.drained.proceed m.freshPress := by
  rw [step, h]

theorem step_idle (h : m.awaiting = some x) (fresh : m.freshPress = none) :
    m.step = ⟨m.drained, [], none⟩ := by
  rw [step_of_suspended h, fresh]
  rfl

theorem step_resume {key : Nibble} (h : m.awaiting = some x) (fresh : m.freshPress = some key) :
    m.step = { (m.drained.setReg x (UInt8.ofNat key.val)).advance with awaiting := none }.finish
      [.keyTaken key x] := by
  rw [step_of_suspended h, fresh]
  rfl

theorem step_unfetched (h : m.awaiting = none)
    (fetch : m.memory.readWord m.counter = .error fault) :
    m.step = ⟨m.drained, [], some fault⟩ := by
  have fetch : m.drained.memory.readWord m.drained.counter = .error fault := fetch
  rw [step_of_running h, proceed, fetch]

theorem step_fetched (h : m.awaiting = none) (fetch : m.memory.readWord m.counter = .ok word) :
    m.step = m.drained.perform m.freshPress word := by
  have fetch : m.drained.memory.readWord m.drained.counter = .ok word := fetch
  rw [step_of_running h, proceed, fetch]

/-- Two bytes before the counter is the word that was fetched last. -/
theorem counter_advance_sub (m : Machine) : m.advance.counter - 2 = m.counter :=
  UInt16.add_sub_cancel m.counter 2

theorem step_unknown (h : m.awaiting = none) (fetch : m.memory.readWord m.counter = .ok word)
    (unknown : Instruction.decode word = none) :
    m.step = ⟨m.drained.advance, [], some (.unknownInstruction word)⟩ := by
  rw [step_fetched h fetch, perform, unknown]

section Decoded

variable {i : Instruction} (h : m.awaiting = none)
  (fetch : m.memory.readWord m.counter = .ok word) (decoded : Instruction.decode word = some i)
include h fetch decoded

/-- An instruction that meets an obstacle leaves the keys drained and the counter behind it, and
    nothing else. -/
theorem step_obstructed (obstacle : i.obstacle m.stack m.index = some fault) :
    m.step = ⟨m.drained.advance, [.executing m.counter word i], some fault⟩ := by
  have failed : (execute m.freshPress i).run m.drained.advance = .error fault m.drained.advance :=
    run_execute_of_obstacle _ obstacle
  rw [step_fetched h fetch, perform, decoded, counter_advance_sub]
  simp only [failed]
  rfl

theorem step_complete {after : Machine}
    (ran : (execute m.freshPress i).run m.drained.advance = .ok () after)
    (running : after.awaiting = none) :
    m.step = after.finish [.executing m.counter word i] := by
  rw [step_fetched h fetch, perform, decoded, counter_advance_sub]
  simp only [ran, running]
  rfl

end Decoded

/-- The counter, which was moved on, is moved back. -/
theorem step_suspend (h : m.awaiting = none) (fetch : m.memory.readWord m.counter = .ok word)
    (decoded : Instruction.decode word = some (.waitKey x)) (fresh : m.freshPress = none) :
    m.step = ⟨{ m.drained with awaiting := some x },
      [.executing m.counter word (.waitKey x), .waiting x m.counter], none⟩ := by
  have back : m.counter + 2 - 2 = m.counter := m.counter_advance_sub
  rw [step_fetched h fetch, perform, decoded, fresh, counter_advance_sub]
  show Outcome.mk { m.drained with counter := m.counter + 2 - 2, awaiting := some x }
    [.executing m.counter word (.waitKey x), .waiting x (m.counter + 2 - 2)] none = _
  rw [back]
  rfl

/-! ## There is no other way -/

/-- What a step can leave: one rule for each way it can go. -/
inductive StepCase (m : Machine) : Outcome → Prop
  | idle {x : Nibble} (suspended : m.awaiting = some x) (fresh : m.freshPress = none) :
      StepCase m ⟨m.drained, [], none⟩
  | resume {x key : Nibble} (suspended : m.awaiting = some x) (fresh : m.freshPress = some key) :
      StepCase m ({ (m.drained.setReg x (UInt8.ofNat key.val)).advance with
        awaiting := none }.finish [.keyTaken key x])
  | unfetched {fault : Fault} (running : m.awaiting = none)
      (fetch : m.memory.readWord m.counter = .error fault) :
      StepCase m ⟨m.drained, [], some fault⟩
  | unknown {word : UInt16} (running : m.awaiting = none)
      (fetch : m.memory.readWord m.counter = .ok word)
      (unknown : Instruction.decode word = none) :
      StepCase m ⟨m.drained.advance, [], some (.unknownInstruction word)⟩
  | obstructed {word : UInt16} {i : Instruction} {fault : Fault} (running : m.awaiting = none)
      (fetch : m.memory.readWord m.counter = .ok word) (decoded : Instruction.decode word = some i)
      (obstacle : i.obstacle m.stack m.index = some fault) :
      StepCase m ⟨m.drained.advance, [.executing m.counter word i], some fault⟩
  | suspend {word : UInt16} {x : Nibble} (running : m.awaiting = none)
      (fetch : m.memory.readWord m.counter = .ok word)
      (decoded : Instruction.decode word = some (.waitKey x)) (fresh : m.freshPress = none) :
      StepCase m ⟨{ m.drained with awaiting := some x },
        [.executing m.counter word (.waitKey x), .waiting x m.counter], none⟩
  | complete {word : UInt16} {i : Instruction} {after : Machine} (running : m.awaiting = none)
      (fetch : m.memory.readWord m.counter = .ok word) (decoded : Instruction.decode word = some i)
      (clear : i.obstacle m.stack m.index = none)
      (ran : (execute m.freshPress i).run m.drained.advance = .ok () after)
      (still : after.awaiting = none) :
      StepCase m (after.finish [.executing m.counter word i])

theorem stepCase_of_clear {i : Instruction} (h : m.awaiting = none)
    (fetch : m.memory.readWord m.counter = .ok word) (decoded : Instruction.decode word = some i)
    (clear : i.obstacle m.stack m.index = none) : StepCase m m.step := by
  obtain ⟨after, ran, awaiting⟩ := run_execute_of_clear (m := m.drained.advance) m.freshPress clear
  rw [show m.drained.advance.awaiting = none from h, Option.or_none] at awaiting
  cases suspends : i.awaits m.freshPress with
  | none =>
    rw [suspends] at awaiting
    rw [step_complete h fetch decoded ran awaiting]
    exact .complete h fetch decoded clear ran awaiting
  | some x =>
    obtain ⟨rfl, fresh⟩ := Instruction.awaits_eq_some.mp suspends
    rw [step_suspend h fetch decoded fresh]
    exact .suspend h fetch decoded fresh

/-- Every step goes one of these ways. -/
theorem stepCase (m : Machine) : StepCase m m.step := by
  cases h : m.awaiting with
  | some x =>
    cases fresh : m.freshPress with
    | none => rw [step_idle h fresh]; exact .idle h fresh
    | some key => rw [step_resume h fresh]; exact .resume h fresh
  | none =>
    cases fetch : m.memory.readWord m.counter with
    | error fault => rw [step_unfetched h fetch]; exact .unfetched h fetch
    | ok word =>
      cases decoded : Instruction.decode word with
      | none => rw [step_unknown h fetch decoded]; exact .unknown h fetch decoded
      | some i =>
        cases obstacle : i.obstacle m.stack m.index with
        | some fault =>
          rw [step_obstructed h fetch decoded obstacle]
          exact .obstructed h fetch decoded obstacle
        | none => exact stepCase_of_clear h fetch decoded obstacle

end Machine

end Chip8
