import Chip8.Display.Text
import Chip8.Headless.Arguments
import Chip8.Headless.Run
import Chip8.Machine.Load

/-!
# What a headless run reports

The exit code, the dump of the display if one is asked for, the log, and, if
the run failed, what failed and why.
-/

namespace Chip8.Headless

/-- The exit code of a command line that is not understood. -/
def usageCode : UInt8 := 2

/-- What failed, and the causes, each the reason of the one before. -/
structure Failure where
  headline : String
  causes : List String
deriving DecidableEq, Repr

namespace Failure

/-- The lines of a text, the first behind a mark and the others behind blanks. -/
def indented (mark blanks text : String) : List String :=
  match text.splitOn "\n" with
  | [] => []
  | line :: lines => (mark ++ line) :: lines.map (blanks ++ ·)

/-- The mark of the cause that a number names. -/
def number (n : Nat) : String :=
  let digits := toString n
  String.ofList (List.replicate (5 - digits.length) ' ') ++ digits ++ ": "

/-- The lines of the causes, which are numbered if there are several. -/
def causeLines : List String → List String
  | [cause] => indented "    " "    " cause
  | causes => causes.zipIdx.flatMap fun cause => indented (number cause.2) "       " cause.1

/-- The lines of the report. -/
def lines (f : Failure) : List String :=
  indented "Error: " "" f.headline ++
    if f.causes.isEmpty then [] else "" :: "Caused by:" :: causeLines f.causes

/-- The report of a program that was not loaded. -/
def ofLoadError (path : String) (e : LoadError) : Failure :=
  ⟨s!"Failed to load {path}", e.message :: e.reason.toList⟩

/-- The report of a run that ended with a fault. -/
def ofFault (path : String) (fault : Fault) : Failure := ⟨s!"{path} stopped", [fault.message]⟩

end Failure

/-- All that a headless run leaves. -/
structure Report where
  code : UInt8
  stdout : List Char
  journal : Array Entry
  failure : Option Failure

namespace Report

/-- The report of a program that was not loaded. -/
def ofLoadError (options : Options) (e : LoadError) : Report where
  code := 1
  stdout := []
  journal := #[]
  failure := some (.ofLoadError options.program e)

/-- The report of a run that has ended. -/
def ofEnding (options : Options) (p : Progress) (ending : Ending) : Report where
  code := match ending with
    | .finished => 0
    | .stopped _ => 1
  stdout := if options.dump then p.machine.display.render else []
  journal := match ending with
    | .finished => p.journal.push p.closingLine
    | .stopped _ => p.journal
  failure := match ending with
    | .finished => none
    | .stopped fault => some (.ofFault options.program fault)

end Report

/-- Loads a program into a fresh machine that is about to run it. -/
def launch (options : Options) (chance : Generator) (reading : FileReading) :
    Except LoadError Progress :=
  match (Machine.loadFile options.program reading).run (.create options.config chance) with
  | .error e _ => .error e
  | .ok size m => .ok ((Progress.start m).log (SoundDevice.announcer.journal (loadEvents size)))

/-- Loads and runs a program; nothing if the fuel does not suffice. -/
def report (options : Options) (chance : Generator) (reading : FileReading) (fuel : Nat) :
    Option Report :=
  match launch options chance reading with
  | .error e => some (.ofLoadError options e)
  | .ok p => (p.run options.maxSteps fuel).map fun ended => .ofEnding options ended.1 ended.2

end Chip8.Headless
