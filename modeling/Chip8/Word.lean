/-!
# Nibbles, bytes and words

The units of the machine. A word is two bytes, high byte first, and also four
nibbles, the most significant first; instructions are written in nibbles.

Results:

* `high_ofBytes`, `low_ofBytes`, `ofBytes_high_low`: a word and its two bytes
  determine each other.
* `Nibbles.ofWord_toWord`, `Nibbles.toWord_ofWord`: splitting a word into
  nibbles and joining nibbles to a word are inverse.
-/

namespace Chip8

/-- Four bits: the number of a register, a key, or an operand. -/
abbrev Nibble := Fin 16

/-- There is a nibble, so that numerals and remainders can stand for nibbles. -/
instance Nibble.neZero : @NeZero Nat Zero.ofOfNat0 16 := ⟨Nat.succ_ne_zero 15⟩

theorem Nibble.val_lt (x : Nibble) : x.val < 16 := x.isLt

/-- Twelve bits: an address that an instruction can name. -/
abbrev Address := Fin 4096

namespace Word

/-- The word with the given high and low byte. -/
def ofBytes (high low : UInt8) : UInt16 := UInt16.ofNat (256 * high.toNat + low.toNat)

/-- The more significant byte of a word. -/
def high (w : UInt16) : UInt8 := UInt8.ofNat (w.toNat / 256)

/-- The less significant byte of a word. -/
def low (w : UInt16) : UInt8 := UInt8.ofNat w.toNat

/-- An address as a word. -/
def ofAddress (a : Address) : UInt16 := UInt16.ofNat a.val

@[simp] theorem toNat_ofAddress (a : Address) : (ofAddress a).toNat = a.val := by
  simp only [ofAddress, UInt16.toNat_ofNat']
  omega

@[simp] theorem toNat_ofBytes (high low : UInt8) :
    (ofBytes high low).toNat = 256 * high.toNat + low.toNat := by
  have := high.toNat_lt
  have := low.toNat_lt
  simp only [ofBytes, UInt16.toNat_ofNat']
  omega

@[simp] theorem ofBytes_high_low (w : UInt16) : ofBytes (high w) (low w) = w := by
  have := w.toNat_lt
  apply UInt16.toNat_inj.mp
  simp only [toNat_ofBytes, high, low, UInt8.toNat_ofNat']
  omega

end Word

/-- The nibbles of a word: the class of the instruction, then its operands. -/
structure Nibbles where
  kind : Nibble
  x : Nibble
  y : Nibble
  n : Nibble
deriving DecidableEq, Repr

namespace Nibbles

/-- The nibbles of a word, the most significant first. -/
def ofWord (w : UInt16) : Nibbles where
  kind := Fin.ofNat 16 (w.toNat / 4096)
  x := Fin.ofNat 16 (w.toNat / 256)
  y := Fin.ofNat 16 (w.toNat / 16)
  n := Fin.ofNat 16 w.toNat

/-- The word that has these nibbles. -/
def toWord (d : Nibbles) : UInt16 :=
  UInt16.ofNat (4096 * d.kind.val + 256 * d.x.val + 16 * d.y.val + d.n.val)

/-- The two lower nibbles read as a byte. -/
def byte (d : Nibbles) : UInt8 := UInt8.ofNat (16 * d.y.val + d.n.val)

/-- The three lower nibbles read as an address. -/
def address (d : Nibbles) : Address := ⟨256 * d.x.val + 16 * d.y.val + d.n.val, by omega⟩

/-- The nibbles of class `kind` that name the register `x` and the byte `b`. -/
def ofByte (kind x : Nibble) (b : UInt8) : Nibbles :=
  ⟨kind, x, Fin.ofNat 16 (b.toNat / 16), Fin.ofNat 16 b.toNat⟩

/-- The nibbles of class `kind` that name the address `a`. -/
def ofAddress (kind : Nibble) (a : Address) : Nibbles :=
  ⟨kind, Fin.ofNat 16 (a.val / 256), Fin.ofNat 16 (a.val / 16), Fin.ofNat 16 a.val⟩

@[simp] theorem kind_ofByte (kind x : Nibble) (b : UInt8) : (ofByte kind x b).kind = kind := rfl

@[simp] theorem x_ofByte (kind x : Nibble) (b : UInt8) : (ofByte kind x b).x = x := rfl

@[simp] theorem kind_ofAddress (kind : Nibble) (a : Address) :
    (ofAddress kind a).kind = kind := rfl

@[simp] theorem toNat_toWord (d : Nibbles) :
    d.toWord.toNat = 4096 * d.kind.val + 256 * d.x.val + 16 * d.y.val + d.n.val := by
  simp only [toWord, UInt16.toNat_ofNat']
  omega

/-- Four nibbles and a word say the same. -/
@[simp] theorem ofWord_toWord (d : Nibbles) : ofWord d.toWord = d := by
  obtain ⟨k, x, y, n⟩ := d
  simp only [ofWord, toNat_toWord, mk.injEq, Fin.ext_iff, Fin.val_ofNat]
  omega

@[simp] theorem toWord_ofWord (w : UInt16) : (ofWord w).toWord = w := by
  have := w.toNat_lt
  apply UInt16.toNat_inj.mp
  simp only [toNat_toWord, ofWord, Fin.val_ofNat]
  omega

@[simp] theorem byte_ofByte (kind x : Nibble) (b : UInt8) : (ofByte kind x b).byte = b := by
  have := b.toNat_lt
  apply UInt8.toNat_inj.mp
  simp only [byte, ofByte, Fin.val_ofNat, UInt8.toNat_ofNat']
  omega

theorem ofByte_byte (d : Nibbles) : ofByte d.kind d.x d.byte = d := by
  obtain ⟨k, x, y, n⟩ := d
  simp only [ofByte, byte, mk.injEq, Fin.ext_iff, Fin.val_ofNat, UInt8.toNat_ofNat', true_and]
  omega

theorem ofAddress_address (d : Nibbles) : ofAddress d.kind d.address = d := by
  obtain ⟨k, x, y, n⟩ := d
  simp only [ofAddress, address, mk.injEq, Fin.ext_iff, Fin.val_ofNat, true_and]
  omega

@[simp] theorem address_ofAddress (kind : Nibble) (a : Address) :
    (ofAddress kind a).address = a := by
  simp only [address, ofAddress, Fin.ext_iff, Fin.val_ofNat]
  omega

end Nibbles

end Chip8
