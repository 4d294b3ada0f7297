import Chip8.Hex
import Chip8.Instruction.Listing

/-!
# The journal

What happens inside a machine is told by events, in order. Most events have a
line in the log; a beep has none of its own, since what it leaves there depends
on the sound device.
-/

namespace Chip8

/-- How urgent a line of the log is. -/
inductive Level where
  | error
  | warn
  | info
  | debug
  | trace
deriving DecidableEq, Repr

namespace Level

/-- The place of a level, the most urgent first. -/
def rank : Level → Nat
  | error => 1
  | warn => 2
  | info => 3
  | debug => 4
  | trace => 5

/-- The name of a level in a line. -/
def name : Level → String
  | error => "ERROR"
  | warn => "WARN"
  | info => "INFO"
  | debug => "DEBUG"
  | trace => "TRACE"

/-- The threshold that a setting asks for; without one only errors pass, and `off` lets none pass.
    -/
def threshold : Option String → Option Level
  | some "off" => none
  | some "warn" => some warn
  | some "info" => some info
  | some "debug" => some debug
  | some "trace" => some trace
  | _ => some error

end Level

/-- A line of the log. -/
structure Entry where
  level : Level
  message : String
deriving DecidableEq, Repr

namespace Entry

/-- The line as text. -/
def text (e : Entry) : String := s!"{e.level.name} {e.message}"

/-- Whether the line passes a threshold; without a threshold no line does. -/
def passes (threshold : Option Level) (e : Entry) : Bool :=
  threshold.any fun level => e.level.rank ≤ level.rank

end Entry

/-- Something that happens inside a machine. -/
inductive Event where
  /-- A program of this many bytes was loaded. -/
  | loaded (size : Nat)
  /-- The word at an address was decoded and is about to be executed. -/
  | executing (address word : UInt16) (instruction : Instruction)
  /-- The machine suspends at an address, until there is a key for a register. -/
  | waiting (register : Nibble) (address : UInt16)
  /-- A suspended machine goes on, with a key in the register it was waiting for. -/
  | keyTaken (key register : Nibble)
  /-- The sound timer has run out. -/
  | soundEnded
  /-- The sound device is told to beep. -/
  | beep
deriving DecidableEq, Repr

/-- The address of the first byte of a program. -/
abbrev programOffset : UInt16 := 0x200

/-- The line that an event has in the log. -/
def Event.entry : Event → Option Entry
  | .loaded size =>
    some ⟨.info, s!"Loaded {size} bytes of program at {location programOffset}"⟩
  | .executing address word instruction =>
    some ⟨.trace, s!"{location address}: {Hex.write Hex.word word.toNat} {instruction.listing}"⟩
  | .waiting register address =>
    some ⟨.debug,
      s!"Waiting for a key press to store in V{nibble register} at {location address}"⟩
  | .keyTaken key register =>
    some ⟨.debug, s!"Key {nibble key} pressed, stored in V{nibble register}"⟩
  | .soundEnded => some ⟨.debug, "Sound timer expired"⟩
  | .beep => none
where
  location (address : UInt16) : String := Hex.writeMarked Hex.location address.toNat
  nibble (n : Nibble) : String := Hex.write Hex.nibble n.val

end Chip8
