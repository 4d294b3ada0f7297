/-!
# Numbers in base sixteen

How a number is written in the log, in fault messages and in listings: each
place has a `Hex.Format`, the case of its digits and the least number of them.
-/

namespace Chip8.Hex

/-- The case of the digits and the least count of them. -/
structure Format where
  upper : Bool
  width : Nat
deriving DecidableEq, Repr

/-- A single register number or key in running text. -/
def nibble : Format := ⟨true, 1⟩

/-- An instruction word in a listing. -/
def word : Format := ⟨true, 4⟩

/-- An address or an unknown instruction in the message of a fault. -/
def fault : Format := ⟨true, 4⟩

/-- An address in a line of the log. -/
def location : Format := ⟨false, 3⟩

/-- A key that does not exist. -/
def unchecked : Format := ⟨false, 1⟩

/-- The digits of `n`, with zeros in front up to the width of the format. -/
def digits (f : Format) (n : Nat) : List Char :=
  let bare := Nat.toDigits 16 n
  let shown := if f.upper then bare.map Char.toUpper else bare
  List.replicate (f.width - shown.length) '0' ++ shown

/-- The number `n` as text, without a mark for the base. -/
def write (f : Format) (n : Nat) : String := String.ofList (digits f n)

/-- The number `n` as text after the mark `0x`. -/
def writeMarked (f : Format) (n : Nat) : String := "0x" ++ write f n

end Chip8.Hex
