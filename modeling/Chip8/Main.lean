import Chip8.Headless.Report

/-!
# The command line

Runs a program without a display at a given speed. The log goes to standard
error while the program runs, then the dump of the display, if one is asked
for, to standard output, and a failure to standard error.
-/

namespace Chip8.Headless

/-- The name of the variable that says which lines of the log are shown. -/
def thresholdVariable : String := "RUST_LOG"

/-- The reason that the operating system gives for a failure. -/
def systemReason : IO.Error → String
  | .noFileOrDirectory _ code details
  | .inappropriateType _ code details
  | .invalidArgument _ code details
  | .permissionDenied _ code details => s!"{details} (os error {code})"
  | e => toString e

/-- Reads the file at a path. -/
def readFile (path : String) : IO FileReading := do
  match ← (IO.FS.Handle.mk path .read).toBaseIO with
  | .error e => return .unopened (systemReason e)
  | .ok handle =>
    match ← handle.readBinToEnd.toBaseIO with
    | .error e => return .unread (systemReason e)
    | .ok bytes => return .contents bytes.toList

/-- Shows the lines that pass the threshold. -/
def announce (threshold : Option Level) (lines : Array Entry) : IO Unit :=
  for line in lines do
    if line.passes threshold then IO.eprintln line.text

/-- Waits until the next step is due, if that is at least a millisecond away. -/
def waitForTurn (options : Options) (started steps : Nat) : IO Unit := do
  let due := started + steps * 1000000000 / max options.speed 1
  let now ← IO.monoNanosNow
  if now + 1000000 ≤ due then IO.sleep (UInt32.ofNat ((due - now) / 1000000))

/-- Makes turns at the speed asked for, and shows what each leaves in the log. -/
partial def runPaced (options : Options) (threshold : Option Level) (started : Nat)
    (p : Progress) : IO (Progress × Ending) := do
  announce threshold p.journal
  let (p, ending) := { p with journal := #[] }.turn options.maxSteps
  match ending with
  | some ending => return (p, ending)
  | none =>
    waitForTurn options started p.steps
    runPaced options threshold started p

/-- A generator that starts anywhere. -/
def anyGenerator : IO Generator := do
  let seed ← IO.rand 0 (UInt64.size - 1)
  return .ofSeed (UInt64.ofNat seed)

/-- Shows a report, and gives its exit code. -/
def conclude (threshold : Option Level) (r : Report) : IO UInt32 := do
  IO.print (String.ofList r.stdout)
  announce threshold r.journal
  if let some failure := r.failure then
    for line in failure.lines do IO.eprintln line
  return r.code.toUInt32

/-- Runs the program that the arguments name. -/
def execute (arguments : List String) : IO UInt32 := do
  let threshold := Level.threshold (← IO.getEnv thresholdVariable)
  match Options.parse arguments with
  | .error e =>
    IO.eprintln s!"error: {e.message}"
    return usageCode.toUInt32
  | .ok options =>
    match launch options (← anyGenerator) (← readFile options.program) with
    | .error e => conclude threshold (.ofLoadError options e)
    | .ok p =>
      let (p, ending) ← runPaced options threshold (← IO.monoNanosNow) p
      conclude threshold (.ofEnding options p ending)

end Chip8.Headless

def main (arguments : List String) : IO UInt32 := Chip8.Headless.execute arguments
