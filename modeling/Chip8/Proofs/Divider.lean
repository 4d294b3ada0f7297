import Chip8.Proofs.Surroundings
import Chip8.Proofs.Trace

/-!
# The timer divider

The divider is looked at by the tick of a step only. Two dividers with which every
tick does the same are the same to a program, and so are zero and one.

Results:

* `run_execute_withDivider`: an instruction does not look at the divider.
* `step_withDivider`, `after_withDivider`: with two dividers that tick alike, a
  machine does the same.
* `ticksAlike_zero_one`: with the dividers zero and one every tick is due.
-/

namespace Chip8

/-- Whether every tick does the same with two dividers. -/
def Timers.TicksAlike (d d' : UInt8) : Prop := ∀ t : Timers, t.isDue d = t.isDue d'

namespace Timers

variable {d d' : UInt8}

/-- A divider of zero is reached by the first tick, as one is. -/
theorem ticksAlike_zero_one : TicksAlike 0 1 := by
  intro t
  have next : 1 ≤ t.nextPhase := by
    rw [nextPhase]
    split
    · decide
    · next notLast =>
      have := t.phase.toNat_lt
      have : t.phase.toNat ≠ 255 := fun last => notLast (UInt8.toNat_inj.mp last)
      rw [UInt8.le_iff_toNat_le, UInt8.toNat_add, Nat.mod_eq_of_lt]
      · exact Nat.le_add_left 1 _
      · show t.phase.toNat + 1 < 256
        omega
  rw [isDue, isDue, decide_eq_true next]
  exact decide_eq_true (UInt8.zero_le)

end Timers

namespace Machine

variable {d d' : UInt8} {m : Machine} {fresh : Option Nibble}

/-- The machine with another divider. -/
def withDivider (d : UInt8) (m : Machine) : Machine :=
  { m with config := { m.config with timerDivider := d } }

/-- What a command leaves, if it is a machine with another divider. -/
def resultWithDivider (d : UInt8) {α : Type} :
    EStateM.Result Fault Machine α → EStateM.Result Fault Machine α
  | .ok a m => .ok a (m.withDivider d)
  | .error fault m => .error fault (m.withDivider d)

theorem withDivider_eq_within (d : UInt8) (m : Machine) :
    m.withDivider d = m.within { m.surroundings with timerDivider := d } := rfl

theorem run_execute_withDivider (d : UInt8) (m : Machine) (fresh : Option Nibble)
    (i : Instruction) :
    (execute fresh i).run (m.withDivider d) = resultWithDivider d ((execute fresh i).run m) := by
  cases obstacle : i.obstacle m.stack m.index with
  | some fault =>
    have obstacle' : i.obstacle (m.withDivider d).stack (m.withDivider d).index = some fault :=
      obstacle
    rw [run_execute_of_obstacle fresh obstacle, run_execute_of_obstacle fresh obstacle']
    rfl
  | none =>
    obtain ⟨after, ran, -⟩ := run_execute_of_clear fresh obstacle
    rw [withDivider_eq_within, run_execute_within _ m fresh fresh i fun _ => ⟨rfl, rfl, rfl⟩, ran,
      resultWithDivider, withDivider_eq_within, surroundings_of_execute ran]
    -- both set the timers to what the instruction leaves of them
    cases i <;> rfl

/-- What a step leaves, if it is a machine with another divider. -/
def outcomeWithDivider (d : UInt8) (o : Outcome) : Outcome :=
  { o with machine := o.machine.withDivider d }

section Alike

variable (alike : Timers.TicksAlike d d')
include alike

theorem finish_withDivider (divider : m.config.timerDivider = d) (events : List Event) :
    (m.withDivider d').finish events = outcomeWithDivider d' (m.finish events) := by
  have due : m.timers.isDue d' = m.timers.isDue m.config.timerDivider := by rw [divider, alike]
  rw [finish, finish, tick, tick, tickEvents, tickEvents, Timers.tick, Timers.tick, Timers.expires,
    Timers.expires]
  show Outcome.mk { m.withDivider d' with timers := if m.timers.isDue d' then _ else _ }
    (events ++ if (m.timers.isDue d' && _) then _ else _) none = _
  rw [due]
  rfl

theorem perform_withDivider (divider : m.config.timerDivider = d) (word : UInt16) :
    (m.withDivider d').perform fresh word = outcomeWithDivider d' (m.perform fresh word) := by
  rw [perform, perform]
  cases Instruction.decode word with
  | none => rfl
  | some i =>
    have same := run_execute_withDivider d' m.advance fresh i
    rw [show (m.withDivider d').advance = m.advance.withDivider d' from rfl]
    cases ran : (execute fresh i).run m.advance with
    | error fault left =>
      rw [ran] at same
      simp only [same, ran]
      rfl
    | ok _ after =>
      rw [ran] at same
      simp only [same, ran, resultWithDivider]
      rw [show (after.withDivider d').awaiting = after.awaiting from rfl]
      cases after.awaiting with
      | some x => rfl
      | none =>
        have config : after.config = m.config := (leaves_of_execute ran).config
        exact finish_withDivider alike (config ▸ divider) _

theorem step_withDivider (divider : m.config.timerDivider = d) :
    (m.withDivider d').step = outcomeWithDivider d' m.step := by
  cases waits : m.awaiting with
  | some x =>
    rw [step_of_suspended waits, step_of_suspended (m := m.withDivider d') waits,
      show (m.withDivider d').freshPress = m.freshPress from rfl]
    cases m.freshPress with
    | none => rfl
    | some key =>
      exact finish_withDivider alike (m := { (m.drained.setReg x _).advance with awaiting := none })
        divider _
  | none =>
    cases fetch : m.memory.readWord m.counter with
    | error fault =>
      rw [step_unfetched waits fetch, step_unfetched (m := m.withDivider d') waits fetch]
      rfl
    | ok word =>
      rw [step_fetched waits fetch, step_fetched (m := m.withDivider d') waits fetch]
      exact perform_withDivider alike (m := m.drained) divider word

/-- Two dividers that tick alike cannot be told apart. -/
theorem after_withDivider (divider : m.config.timerDivider = d) (history : List Action) :
    (m.withDivider d').after history = (m.after history).withDivider d' := by
  induction history generalizing m with
  | nil => rfl
  | cons a history ih =>
    have same : (m.withDivider d').act a = (m.act a).withDivider d' := by
      cases a with
      | load program =>
        rw [act_load, act_load]
        split <;> rfl
      | send event => rfl
      | step => exact congrArg Outcome.machine (step_withDivider alike divider)
      | takeRedraw => rfl
    show ((m.withDivider d').act a).after history = _
    rw [same]
    exact ih (m.config_act a ▸ divider)

end Alike

end Machine

end Chip8
