import Chip8.Word

/-!
# Glyphs

The character set: a sprite of five rows for each of the sixteen digits. The
memory of a fresh machine starts with it.
-/

namespace Chip8.Glyphs

/-- The number of rows of a glyph. -/
abbrev rows : Nat := 5

/-- The number of bytes of all glyphs. -/
abbrev size : Nat := 80

/-- The address of the first glyph. -/
abbrev offset : Nat := 0

/-- The glyphs of the digits 0 to F, each from its top row down. -/
def charset : Vector UInt8 size := #v[
  0xF0, 0x90, 0x90, 0x90, 0xF0,
  0x20, 0x60, 0x20, 0x20, 0x70,
  0xF0, 0x10, 0xF0, 0x80, 0xF0,
  0xF0, 0x10, 0xF0, 0x10, 0xF0,
  0x90, 0x90, 0xF0, 0x10, 0x10,
  0xF0, 0x80, 0xF0, 0x10, 0xF0,
  0xF0, 0x80, 0xF0, 0x90, 0xF0,
  0xF0, 0x10, 0x20, 0x40, 0x40,
  0xF0, 0x90, 0xF0, 0x90, 0xF0,
  0xF0, 0x90, 0xF0, 0x10, 0xF0,
  0xF0, 0x90, 0xF0, 0x90, 0x90,
  0xE0, 0x90, 0xE0, 0x90, 0xE0,
  0xF0, 0x80, 0x80, 0x80, 0xF0,
  0xE0, 0x90, 0x90, 0x90, 0xE0,
  0xF0, 0x80, 0xF0, 0x80, 0xF0,
  0xF0, 0x80, 0xF0, 0x80, 0x80]

/-- The address of the glyph of a digit. -/
def address (digit : Nibble) : UInt16 := UInt16.ofNat (offset + rows * digit.val)

theorem toNat_address (digit : Nibble) : (address digit).toNat = rows * digit.val := by
  simp only [address, offset, rows, UInt16.toNat_ofNat']
  omega

end Chip8.Glyphs
