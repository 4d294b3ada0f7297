/-!
# Random numbers

A permuted congruential generator: a linear congruential sequence of 64 bit
states, of which each yields 32 bits that are shifted, folded and rotated. A
seed is spread over state and increment by a second such sequence, whose
increment is fixed.
-/

namespace Chip8

/-- The current state and the increment of the sequence of states. -/
structure Generator where
  state : UInt64
  increment : UInt64
deriving DecidableEq, Repr

namespace Generator

/-- The factor of every sequence of states. -/
def multiplier : UInt64 := 6364136223846793005

/-- The increment of the sequence that spreads a seed. -/
def seedIncrement : UInt64 := 11634580027462260723

/-- The word rotated to the right by an amount below 32. -/
def rotateRight (w amount : UInt32) : UInt32 :=
  (w >>> amount) ||| (w <<< ((32 - amount) % 32))

/-- The 32 bits that a state yields. -/
def output (state : UInt64) : UInt32 :=
  rotateRight (((state >>> 18) ^^^ state) >>> 27).toUInt32 (state >>> 59).toUInt32

/-- The `n`th state of the sequence that spreads a seed, which starts with the seed itself. -/
def seedState (seed : UInt64) : Nat → UInt64
  | 0 => seed
  | n + 1 => seedState seed n * multiplier + seedIncrement

/-- The `n`th word that the sequence of a seed yields after the seed itself. -/
def seedWord (seed : UInt64) (n : Nat) : UInt32 := output (seedState seed (n + 1))

/-- The 64 bits with the given halves. -/
def join (low high : UInt32) : UInt64 := low.toUInt64 ||| (high.toUInt64 <<< 32)

/-- The generator of a seed; its increment is odd. -/
def ofSeed (seed : UInt64) : Generator :=
  let start := join (seedWord seed 0) (seedWord seed 1)
  let increment := join (seedWord seed 2) (seedWord seed 3) ||| 1
  { state := (start + increment) * multiplier + increment, increment }

/-- The 32 bits drawn from the generator. -/
def draw (g : Generator) : UInt32 := output g.state

/-- The byte drawn from the generator: the lowest eight of the bits drawn. -/
def drawByte (g : Generator) : UInt8 := g.draw.toUInt8

/-- The generator after a draw. -/
def advance (g : Generator) : Generator :=
  { g with state := g.state * multiplier + g.increment }

/-- The generator after `n` draws. -/
def advanceBy (g : Generator) : Nat → Generator
  | 0 => g
  | n + 1 => (g.advanceBy n).advance

/-- The first draws of the generator of the seed one. -/
example :
    (List.range 3).map (fun n => ((ofSeed 1).advanceBy n).draw) =
      [0x33A70BE6, 0x7DBCF3EE, 0xCADF4751] := by decide +kernel

end Generator

end Chip8
