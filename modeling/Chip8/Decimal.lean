/-!
# Reading decimal numbers

Numbers as they are given on a command line: one or more of the digits 0 to 9,
after a plus sign or nothing, and where a negative number can be named also
after a minus sign.
-/

namespace Chip8.Decimal

/-- Whether a character is a digit. -/
def isDigit (c : Char) : Bool := '0' ≤ c && c ≤ '9'

/-- The number that is continued by the digits. -/
def extend (n : Nat) (digits : List Char) : Nat :=
  digits.foldl (fun n c => 10 * n + (c.toNat - '0'.toNat)) n

/-- The number of one or more digits. -/
def natural? (text : List Char) : Option Nat :=
  if text ≠ [] ∧ text.all isDigit then some (extend 0 text) else none

/-- The number of digits that may follow a plus sign. -/
def unsigned? : List Char → Option Nat
  | '+' :: text => natural? text
  | text => natural? text

/-- The number of digits that may follow a plus or a minus sign. -/
def signed? : List Char → Option Int
  | '-' :: text => (natural? text).map fun n => -(n : Int)
  | text => (unsigned? text).map fun n => (n : Int)

end Chip8.Decimal
