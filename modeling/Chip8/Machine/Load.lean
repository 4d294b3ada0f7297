import Chip8.Machine.Basic

/-!
# Loading a program

A program goes into memory from `programOffset` on, as a whole or not at all.
Nothing but those cells changes, also in a machine that has run before.

Results:

* `run_load`: exactly the programs of at most 3584 bytes are loaded.
-/

namespace Chip8

/-- The number of bytes of the longest program. -/
abbrev maxProgramSize : Nat := 3584

/-- What came of reading a file. -/
inductive FileReading where
  /-- All its bytes. -/
  | contents (bytes : List UInt8)
  /-- It could not be opened, for the given reason. -/
  | unopened (reason : String)
  /-- It could be opened but not read, for the given reason. -/
  | unread (reason : String)
deriving DecidableEq, Repr

/-- Why a program was not loaded. -/
inductive LoadError where
  | tooLarge (size : Nat)
  | unopened (path reason : String)
  | unread (path reason : String)
deriving DecidableEq, Repr

namespace LoadError

/-- The text that reports the failure. -/
def message : LoadError → String
  | .tooLarge size =>
    s!"program is too large ({size} bytes), at most {maxProgramSize} bytes fit"
  | .unopened path _ => s!"could not open program file {path}"
  | .unread path _ => s!"could not read program file {path}"

/-- What caused the failure, if something else did. -/
def reason : LoadError → Option String
  | .tooLarge _ => none
  | .unopened _ reason => some reason
  | .unread _ reason => some reason

end LoadError

/-- The events of a load of so many bytes. -/
def loadEvents (size : Nat) : List Event := [.loaded size]

namespace Machine

/-- Loads a program, and tells its size. -/
def load (program : List UInt8) : EStateM LoadError Machine Nat := do
  onMemory (.adaptExcept (fun _ => .tooLarge program.length)
    (Memory.writeSlice programOffset program))
  return program.length

/-- Loads what was read from the file at a path. -/
def loadFile (path : String) : FileReading → EStateM LoadError Machine Nat
  | .contents bytes => load bytes
  | .unopened reason => throw (.unopened path reason)
  | .unread reason => throw (.unread path reason)

/-- A load touches nothing but memory, and not even that if the program is too large. -/
theorem run_load (m : Machine) (program : List UInt8) :
    (load program).run m =
      if program.length ≤ maxProgramSize then
        .ok program.length
          { m with memory := m.memory.overwrite programOffset.toNat program }
      else .error (.tooLarge program.length) m := by
  have start : programOffset.toNat = 512 := rfl
  have fits : (program.length = 0 ∨ 512 + program.length ≤ memorySize) ↔
      program.length ≤ maxProgramSize := by
    simp only [maxProgramSize, memorySize]
    omega
  simp only [load, onMemory, EStateM.run_bind, run_zoom, EStateM.run_adaptExcept,
    Memory.run_writeSlice, start, fits]
  by_cases h : program.length ≤ maxProgramSize
  · simp only [if_pos h, EStateM.run_pure]
  · simp only [if_neg h]

end Machine

end Chip8
