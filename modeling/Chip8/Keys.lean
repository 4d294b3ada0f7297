import Chip8.Word

/-!
# The keypad

Sixteen keys. Whoever holds the keypad sends events; the machine drains those
that are pending at the start of each step. A press is fresh iff it finds its
key up, and a drain reports the first fresh press among the events it applies.

Results:

* `drain_append`: draining two lists of events at once, or one after the other,
  leaves the same keys held; the press reported is the first of either.
* `drain_eq_foldl`: the keys held after a drain are those left by applying the
  events in order.
-/

namespace Chip8

/-- The number of keys. -/
abbrev keyCount : Nat := 16

/-- A change of the keypad. -/
inductive KeyEvent where
  | press (key : Nibble)
  | release (key : Nibble)
  | releaseAll
deriving DecidableEq, Repr

/-- For each key, whether it is down. -/
structure HeldKeys where
  down : Vector Bool keyCount
deriving DecidableEq

namespace HeldKeys

/-- All keys up. -/
def allUp : HeldKeys := ⟨Vector.replicate keyCount false⟩

/-- Whether a key is down. -/
def isDown (held : HeldKeys) (key : Nibble) : Bool := held.down[key]

/-- The keys after an event. -/
def apply (held : HeldKeys) : KeyEvent → HeldKeys
  | .press key => ⟨held.down.set key.val true key.val_lt⟩
  | .release key => ⟨held.down.set key.val false key.val_lt⟩
  | .releaseAll => allUp

/-- The key that an event presses, if it was up. -/
def freshPress (held : HeldKeys) : KeyEvent → Option Nibble
  | .press key => if held.isDown key then none else some key
  | .release _ => none
  | .releaseAll => none

/-- Applies the events in order, and reports the first fresh press. -/
def drain (held : HeldKeys) : List KeyEvent → HeldKeys × Option Nibble
  | [] => (held, none)
  | e :: es =>
    let rest := (held.apply e).drain es
    (rest.1, (held.freshPress e).or rest.2)

theorem drain_eq_foldl (held : HeldKeys) (es : List KeyEvent) :
    (held.drain es).1 = es.foldl apply held := by
  induction es generalizing held with
  | nil => rfl
  | cons e es ih => exact ih _

/-- Where a list of events is cut makes no difference to the keys, and the fresh press is that of
    the first part unless it has none. -/
theorem drain_append (held : HeldKeys) (es es' : List KeyEvent) :
    held.drain (es ++ es') =
      (((held.drain es).1.drain es').1,
        (held.drain es).2.or ((held.drain es).1.drain es').2) := by
  induction es generalizing held with
  | nil => simp [drain]
  | cons e es ih => simp [drain, ih, Option.or_assoc]

/-- A press and a release are about one key; all others stay as they are. -/
theorem isDown_apply (held : HeldKeys) (e : KeyEvent) (key : Nibble) :
    (held.apply e).isDown key =
      match e with
      | .press k => k == key || held.isDown key
      | .release k => k != key && held.isDown key
      | .releaseAll => false := by
  cases e with
  | press k =>
    simp only [apply, isDown, Fin.getElem_fin, Vector.getElem_set, ← Fin.ext_iff]
    by_cases h : k = key <;> simp [h]
  | release k =>
    simp only [apply, isDown, Fin.getElem_fin, Vector.getElem_set, ← Fin.ext_iff]
    by_cases h : k = key <;> simp [h]
  | releaseAll => simp [apply, isDown, allUp]

end HeldKeys

/-- The keys as the machine knows them, and the events sent since it last looked. -/
structure Keypad where
  held : HeldKeys
  /-- The events not yet applied, the oldest first. -/
  pending : List KeyEvent
deriving DecidableEq

namespace Keypad

/-- The keypad of a fresh machine. -/
def initial : Keypad := ⟨.allUp, []⟩

/-- Queues an event behind those already pending. -/
def send (k : Keypad) (e : KeyEvent) : Keypad := { k with pending := k.pending ++ [e] }

/-- Applies all pending events, and reports the first fresh press. -/
def poll (k : Keypad) : Keypad × Option Nibble :=
  let drained := k.held.drain k.pending
  (⟨drained.1, []⟩, drained.2)

/-- Whether the key named by the low nibble of a byte is down. -/
def isDown (k : Keypad) (b : UInt8) : Bool := k.held.isDown (Fin.ofNat 16 b.toNat)

end Keypad

end Chip8
