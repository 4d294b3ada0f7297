import Chip8.Machine.Step

/-!
# Many steps

Two ways to make up to a given number of steps, which both end with the first
step that fails: `Machine.outcomes` keeps what every step left, `Machine.run`
only where the last one led, how many succeeded, and how many beeps there were.
-/

namespace Chip8

/-- Where a number of steps led. -/
structure Run where
  machine : Machine
  /-- The number of steps that succeeded. -/
  steps : Nat
  /-- The beeps of all steps. -/
  beeps : Nat
  fault : Option Fault

namespace Run

/-- The run that has not made a step. -/
def start (m : Machine) : Run := ⟨m, 0, 0, none⟩

/-- The run with one more step. -/
def extend (r : Run) : Run :=
  let outcome := r.machine.step
  { machine := outcome.machine
    steps := if outcome.fault.isNone then r.steps + 1 else r.steps
    beeps := r.beeps + outcome.beeps
    fault := outcome.fault }

/-- The run with up to `n` more steps. -/
def extendBy (r : Run) : Nat → Run
  | 0 => r
  | n + 1 => if r.fault.isSome then r else r.extend.extendBy n

end Run

namespace Machine

/-- Makes up to `n` steps. -/
def run (m : Machine) (n : Nat) : Run := (Run.start m).extendBy n

/-- The outcomes of up to `n` steps. -/
def outcomes (m : Machine) : Nat → List Outcome
  | 0 => []
  | n + 1 =>
    let outcome := m.step
    outcome :: if outcome.fault.isSome then [] else outcome.machine.outcomes n

end Machine

end Chip8
