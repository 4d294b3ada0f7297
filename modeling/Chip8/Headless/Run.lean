import Chip8.Machine.Step
import Chip8.Sound

/-!
# Running without a display

Nobody holds the keypad of a headless run, so that it ends when the program
waits for a key, when a step fails, or when the limit of steps is reached; a
program that does none of these runs for ever. One turn of the loop is
`Progress.turn`; `Progress.run` makes turns until one ends the run, as long as
there is fuel.

Results:

* `run_mono`: more fuel keeps a run that has ended.
* `steps_take`: a turn that does not end the run counts its step.
-/

namespace Chip8.Headless

/-- A run on its way: the machine, the number of steps that succeeded, and the log. -/
structure Progress where
  machine : Machine
  steps : Nat
  journal : Array Entry

/-- How a run ends. -/
inductive Ending where
  /-- The limit was reached or the program waits for a key. -/
  | finished
  /-- A step failed. -/
  | stopped (fault : Fault)
deriving DecidableEq, Repr

namespace Progress

/-- The run that has not made a step. -/
def start (m : Machine) : Progress := ⟨m, 0, #[]⟩

/-- The run with more lines in its log. -/
def log (p : Progress) (lines : List Entry) : Progress :=
  { p with journal := p.journal ++ lines }

/-- The line for a step that failed, with the counter that it left. -/
def stopLine (p : Progress) (fault : Fault) : Entry :=
  let location := Hex.writeMarked Hex.location p.machine.counter.toNat
  ⟨.error, s!"Stopped at {location} after {p.steps} steps: {fault.message}"⟩

/-- The line for a step that drew to the display. -/
def redrawLine (p : Progress) : Entry := ⟨.info, s!"Display updated after {p.steps} steps"⟩

/-- Counts a step that succeeded, and announces what it drew. -/
def count (p : Progress) : Progress :=
  let p := { p with steps := p.steps + 1 }
  let taken := p.machine.takeRedraw
  { p.log (if taken.1 then [p.redrawLine] else []) with machine := taken.2 }

/-- Whether the limit of steps is reached. -/
def isAtLimit (limit : Option Nat) (p : Progress) : Bool := limit.any (· ≤ p.steps)

/-- The run with the machine and the events of an outcome. -/
def follow (p : Progress) (outcome : Outcome) : Progress :=
  { p.log (SoundDevice.announcer.journal outcome.events) with machine := outcome.machine }

/-- The run after the outcome of a step, and its ending if the step ends it. -/
def take (p : Progress) (outcome : Outcome) : Progress × Option Ending :=
  let p := p.follow outcome
  match outcome.fault with
  | some fault => (p.log [p.stopLine fault], some (.stopped fault))
  | none => (p.count, if p.machine.awaiting.isSome then some .finished else none)

/-- One turn: ends the run at its limit, or else makes a step. -/
def turn (limit : Option Nat) (p : Progress) : Progress × Option Ending :=
  if p.isAtLimit limit then (p, some .finished) else p.take p.machine.step

/-- Makes turns until one ends the run; nothing if the fuel does not suffice. -/
def run (limit : Option Nat) : Nat → Progress → Option (Progress × Ending)
  | 0, _ => none
  | fuel + 1, p =>
    match p.turn limit with
    | (p, some ending) => some (p, ending)
    | (p, none) => p.run limit fuel

/-- The line that closes a run which did not fail. -/
def closingLine (p : Progress) : Entry :=
  match p.machine.awaiting with
  | some x =>
    ⟨.warn, s!"Program is waiting for a key to store in V{Hex.write Hex.nibble x.val}"⟩
  | none =>
    let location := Hex.writeMarked Hex.location p.machine.counter.toNat
    ⟨.info, s!"Ran {p.steps} steps, program counter at {location}"⟩

/-- Only a step that succeeds is counted. -/
theorem steps_take {p q : Progress} {outcome : Outcome} (h : p.take outcome = (q, none)) :
    q.steps = p.steps + 1 := by
  unfold take at h
  cases hf : outcome.fault with
  | some fault => simp [hf] at h
  | none =>
    simp only [hf, Prod.mk.injEq] at h
    rw [← h.1]
    rfl

/-- More fuel keeps a run that has ended. -/
theorem run_mono {limit : Option Nat} {fuel more : Nat} {p : Progress}
    {ended : Progress × Ending} (le : fuel ≤ more) (h : p.run limit fuel = some ended) :
    p.run limit more = some ended := by
  induction fuel generalizing p more with
  | zero => simp [run] at h
  | succ fuel ih =>
    obtain ⟨more, rfl⟩ : ∃ k, more = k + 1 := ⟨more - 1, by omega⟩
    unfold run at h ⊢
    split at h
    · exact h
    · exact ih (by omega) h

end Progress

end Chip8.Headless
