import Chip8.Machine.Load
import Chip8.Machine.Step

/-!
# Histories

What can be done to a machine from outside, one thing after the other, and the
machines that can come of it.

Results:

* `act_load`: a load replaces cells from `programOffset` on, or nothing.
* `after_append`: a history can be cut anywhere.
* `reachable_iff`: a machine is reachable iff some history of a fresh machine
  leads to it.
* `act_load_create`, `readWord_act_load_create`: what a fresh machine holds once a program
  is loaded into it.
-/

namespace Chip8

/-- Something that is done to a machine. -/
inductive Action where
  | load (program : List UInt8)
  | send (event : KeyEvent)
  | step
  | takeRedraw
deriving DecidableEq, Repr

namespace Machine

/-- The machine after an action, which may have failed. -/
def act (m : Machine) : Action → Machine
  | .load program =>
    match (load program).run m with
    | .ok _ loaded => loaded
    | .error _ left => left
  | .send event => m.send event
  | .step => m.step.machine
  | .takeRedraw => m.takeRedraw.2

/-- The machine after all actions of a history, the first one first. -/
def after (m : Machine) (history : List Action) : Machine := history.foldl act m

/-- A machine that can come of a fresh one. -/
inductive Reachable : Machine → Prop
  | create (config : Config) (chance : Generator) : Reachable (.create config chance)
  | act {m : Machine} (reachable : Reachable m) (a : Action) : Reachable (m.act a)

/-- A program that is too large is not loaded in part. -/
theorem act_load (m : Machine) (program : List UInt8) :
    m.act (.load program) =
      if program.length ≤ maxProgramSize then
        { m with memory := m.memory.overwrite programOffset.toNat program }
      else m := by
  by_cases fits : program.length ≤ maxProgramSize
  · rw [act, run_load, if_pos fits, if_pos fits]
  · rw [act, run_load, if_neg fits, if_neg fits]

theorem act_step (m : Machine) : m.act .step = m.step.machine := rfl

theorem after_nil (m : Machine) : m.after [] = m := rfl

theorem after_cons (m : Machine) (a : Action) (history : List Action) :
    m.after (a :: history) = (m.act a).after history := rfl

theorem after_append (m : Machine) (history later : List Action) :
    m.after (history ++ later) = (m.after history).after later := List.foldl_append

theorem Reachable.after {m : Machine} (h : Reachable m) (history : List Action) :
    Reachable (m.after history) := by
  induction history generalizing m with
  | nil => exact h
  | cons a history ih => exact ih (h.act a)

/-- What can be reached is what some history leads to. -/
theorem reachable_iff (m : Machine) :
    Reachable m ↔ ∃ config chance history, m = (create config chance).after history := by
  constructor
  · intro h
    induction h with
    | create config chance => exact ⟨config, chance, [], rfl⟩
    | act _ a ih =>
      obtain ⟨config, chance, history, rfl⟩ := ih
      exact ⟨config, chance, history ++ [a], by rw [after_append]; rfl⟩
  · rintro ⟨config, chance, history, rfl⟩
    exact (Reachable.create config chance).after history

/-! ## A program on a fresh machine -/

theorem act_load_create (config : Config) (chance : Generator) {program : List UInt8}
    (fits : program.length ≤ maxProgramSize) :
    (create config chance).act (.load program) =
      { create config chance with
        memory := Memory.initial.overwrite programOffset.toNat program } := by
  rw [act_load, if_pos fits]
  rfl

/-- The word at place `k` of a program that is loaded. -/
theorem readWord_act_load_create (config : Config) (chance : Generator) {program : List UInt8}
    {k : Nat} {address w : UInt16} (fits : program.length ≤ maxProgramSize)
    (place : address.toNat = programOffset.toNat + k)
    (first : program[k]? = some (Word.high w)) (second : program[k + 1]? = some (Word.low w)) :
    ((create config chance).act (.load program)).memory.readWord address = .ok w := by
  have inside : programOffset.toNat + program.length ≤ memorySize :=
    Nat.add_le_add_left fits programOffset.toNat
  rw [act_load_create config chance fits]
  exact Memory.initial.readWord_overwrite_at inside place first second

/-- A fresh machine into which a program was loaded. -/
def started (program : List UInt8) : Machine :=
  (create {} (.ofSeed 0)).after [.load program]

theorem started_eq {program : List UInt8} (fits : program.length ≤ maxProgramSize) :
    started program =
      { create {} (.ofSeed 0) with
        memory := Memory.initial.overwrite programOffset.toNat program } :=
  act_load_create {} (.ofSeed 0) fits

theorem readWord_started_at {program : List UInt8} {k : Nat} {address w : UInt16}
    (fits : program.length ≤ maxProgramSize) (place : address.toNat = programOffset.toNat + k)
    (first : program[k]? = some (Word.high w)) (second : program[k + 1]? = some (Word.low w)) :
    (started program).memory.readWord address = .ok w :=
  readWord_act_load_create {} (.ofSeed 0) fits place first second

theorem readWord_started (w : UInt16) :
    (started [Word.high w, Word.low w]).memory.readWord programOffset = .ok w := by
  have fits : [Word.high w, Word.low w].length ≤ maxProgramSize := by
    show 2 ≤ maxProgramSize
    decide
  rw [started_eq fits]
  exact Memory.readWord_overwrite _ _ w (by decide)

end Machine

end Chip8
