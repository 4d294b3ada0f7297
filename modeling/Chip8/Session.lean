import Chip8.Machine.Load
import Chip8.Machine.Run

/-!
# Sessions

A machine as those around it see it: keys are named by any number, and the
machine may have been dropped while someone still holds its keypad. A key that
does not exist is refused before anything else is looked at.
-/

namespace Chip8

/-- Why a key event was not sent. -/
inductive KeyError where
  /-- There is no key of this number. -/
  | invalidKey (key : Nat)
  /-- The machine was dropped. -/
  | disconnected
deriving DecidableEq, Repr

/-- The text that reports the failure. -/
def KeyError.message : KeyError → String
  | .invalidKey key => s!"Invalid key {Hex.writeMarked Hex.unchecked key}"
  | .disconnected => "sending on a disconnected channel"

/-- The key of a number, if there is one. -/
def keyOf (number : Nat) : Except KeyError Nibble :=
  if h : number < keyCount then .ok ⟨number, h⟩ else .error (.invalidKey number)

/-- A machine, until it is dropped. -/
structure Session where
  machine : Option Machine

namespace Session

/-- The session of a fresh machine. -/
def start (config : Config) (chance : Generator) : Session := ⟨some (.create config chance)⟩

/-- The session after the machine was dropped. -/
def drop (_ : Session) : Session := ⟨none⟩

/-- Sends a key event to the machine. -/
def send (s : Session) (e : KeyEvent) : Except KeyError Session :=
  match s.machine with
  | some m => .ok ⟨some (m.send e)⟩
  | none => .error .disconnected

/-- Presses the key of a number. -/
def press (s : Session) (key : Nat) : Except KeyError Session := do
  s.send (.press (← keyOf key))

/-- Releases the key of a number. -/
def release (s : Session) (key : Nat) : Except KeyError Session := do
  s.send (.release (← keyOf key))

/-- Releases all keys. -/
def releaseAll (s : Session) : Except KeyError Session := s.send .releaseAll

end Session

end Chip8
