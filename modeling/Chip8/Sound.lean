import Chip8.Journal

/-!
# Sound devices

What a beep does depends on the device that the machine was given.
-/

namespace Chip8

/-- What is told to beep. -/
inductive SoundDevice where
  /-- Someone counts the beeps. -/
  | counter
  /-- Nothing happens. -/
  | mute
  /-- The beeps are sent to someone who has gone. -/
  | abandoned
  /-- The beeps are announced in the log. -/
  | announcer
deriving DecidableEq, Repr

namespace SoundDevice

/-- What a beep leaves in the log. -/
def onBeep : SoundDevice → List Entry
  | counter => []
  | mute => []
  | abandoned => [⟨.warn, "Dropping beep, the receiving end of the sound channel is gone"⟩]
  | announcer => [⟨.info, "Beep"⟩]

/-- How many of a number of beeps someone counts. -/
def heard : SoundDevice → Nat → Nat
  | counter, beeps => beeps
  | _, _ => 0

/-- The lines that the events leave in the log. -/
def journal (device : SoundDevice) (events : List Event) : List Entry :=
  events.flatMap fun
    | .beep => device.onBeep
    | e => e.entry.toList

theorem journal_append (device : SoundDevice) (es es' : List Event) :
    device.journal (es ++ es') = device.journal es ++ device.journal es' := by
  simp [journal]

end SoundDevice

end Chip8
