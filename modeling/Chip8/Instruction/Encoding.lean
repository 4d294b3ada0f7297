import Chip8.Instruction.Basic

/-!
# Instruction words

The word of an instruction, and the instruction of a word. Every instruction
has one word, but for the shifts, which ignore the nibble that other operations
use for their second register.

Results:

* `ofNibbles_toNibbles`, `decode_encode`: an instruction is read back from its
  word.
* `ofNibbles_eq_some_iff`, `spells_of_decode`: a word decodes to an instruction iff
  it is the word of that instruction, up to the ignored nibble of a shift.
-/

namespace Chip8

namespace Operation

/-- The last nibble of the word of an operation. -/
def code : Operation → Nibble
  | .load => 0x0
  | .or => 0x1
  | .and => 0x2
  | .xor => 0x3
  | .add => 0x4
  | .subtract => 0x5
  | .subtractFrom => 0x7

end Operation

namespace Shift

/-- The last nibble of the word of a shift. -/
def code : Shift → Nibble
  | .right => 0x6
  | .left => 0xE

end Shift

namespace Instruction

/-- The nibbles of an instruction; a shift has a zero for the nibble it ignores. -/
def toNibbles : Instruction → Nibbles
  | .clearScreen => ⟨0x0, 0x0, 0xE, 0x0⟩
  | .return => ⟨0x0, 0x0, 0xE, 0xE⟩
  | .jump target => .ofAddress 0x1 target
  | .call target => .ofAddress 0x2 target
  | .skip (.equalValue x value) => .ofByte 0x3 x value
  | .skip (.notEqualValue x value) => .ofByte 0x4 x value
  | .skip (.equalRegister x y) => ⟨0x5, x, y, 0x0⟩
  | .loadValue x value => .ofByte 0x6 x value
  | .addValue x value => .ofByte 0x7 x value
  | .combine operation x y => ⟨0x8, x, y, operation.code⟩
  | .shift direction x => ⟨0x8, x, 0x0, direction.code⟩
  | .skip (.notEqualRegister x y) => ⟨0x9, x, y, 0x0⟩
  | .loadIndex target => .ofAddress 0xA target
  | .jumpOffset base => .ofAddress 0xB base
  | .random x mask => .ofByte 0xC x mask
  | .draw x y n => ⟨0xD, x, y, n⟩
  | .skip (.keyDown x) => ⟨0xE, x, 0x9, 0xE⟩
  | .skip (.keyUp x) => ⟨0xE, x, 0xA, 0x1⟩
  | .loadDelay x => ⟨0xF, x, 0x0, 0x7⟩
  | .waitKey x => ⟨0xF, x, 0x0, 0xA⟩
  | .setDelay x => ⟨0xF, x, 0x1, 0x5⟩
  | .setSound x => ⟨0xF, x, 0x1, 0x8⟩
  | .addIndex x => ⟨0xF, x, 0x1, 0xE⟩
  | .loadGlyph x => ⟨0xF, x, 0x2, 0x9⟩
  | .storeDecimal x => ⟨0xF, x, 0x3, 0x3⟩
  | .storeRegisters x => ⟨0xF, x, 0x5, 0x5⟩
  | .loadRegisters x => ⟨0xF, x, 0x6, 0x5⟩

/-- The instruction of class 8, which computes with registers. -/
def ofArithmetic (x y : Nibble) : Nibble → Option Instruction
  | 0x0 => some (.combine .load x y)
  | 0x1 => some (.combine .or x y)
  | 0x2 => some (.combine .and x y)
  | 0x3 => some (.combine .xor x y)
  | 0x4 => some (.combine .add x y)
  | 0x5 => some (.combine .subtract x y)
  | 0x6 => some (.shift .right x)
  | 0x7 => some (.combine .subtractFrom x y)
  | 0xE => some (.shift .left x)
  | _ => none

/-- The instruction of class F, which concerns timers, keys, the index and memory. -/
def ofService (x : Nibble) : Nibble → Nibble → Option Instruction
  | 0x0, 0x7 => some (.loadDelay x)
  | 0x0, 0xA => some (.waitKey x)
  | 0x1, 0x5 => some (.setDelay x)
  | 0x1, 0x8 => some (.setSound x)
  | 0x1, 0xE => some (.addIndex x)
  | 0x2, 0x9 => some (.loadGlyph x)
  | 0x3, 0x3 => some (.storeDecimal x)
  | 0x5, 0x5 => some (.storeRegisters x)
  | 0x6, 0x5 => some (.loadRegisters x)
  | _, _ => none

/-- The instruction that the nibbles are, if any. -/
def ofNibbles (d : Nibbles) : Option Instruction :=
  match d.kind with
  | 0x0 =>
    match d.x, d.y, d.n with
    | 0x0, 0xE, 0x0 => some .clearScreen
    | 0x0, 0xE, 0xE => some .return
    | _, _, _ => none
  | 0x1 => some (.jump d.address)
  | 0x2 => some (.call d.address)
  | 0x3 => some (.skip (.equalValue d.x d.byte))
  | 0x4 => some (.skip (.notEqualValue d.x d.byte))
  | 0x5 => if d.n = 0 then some (.skip (.equalRegister d.x d.y)) else none
  | 0x6 => some (.loadValue d.x d.byte)
  | 0x7 => some (.addValue d.x d.byte)
  | 0x8 => ofArithmetic d.x d.y d.n
  | 0x9 => if d.n = 0 then some (.skip (.notEqualRegister d.x d.y)) else none
  | 0xA => some (.loadIndex d.address)
  | 0xB => some (.jumpOffset d.address)
  | 0xC => some (.random d.x d.byte)
  | 0xD => some (.draw d.x d.y d.n)
  | 0xE =>
    match d.y, d.n with
    | 0x9, 0xE => some (.skip (.keyDown d.x))
    | 0xA, 0x1 => some (.skip (.keyUp d.x))
    | _, _ => none
  -- class F
  | _ => ofService d.x d.y d.n

/-- The word of an instruction. -/
def encode (i : Instruction) : UInt16 := i.toNibbles.toWord

/-- The instruction of a word, if it has one. -/
def decode (w : UInt16) : Option Instruction := ofNibbles (.ofWord w)

/-- The nibbles are those of the instruction, but for the second register of a shift. -/
def Spells (d : Nibbles) : Instruction → Prop
  | .shift direction x => d.kind = 0x8 ∧ d.x = x ∧ d.n = direction.code
  | i => d = i.toNibbles

theorem exists_of_spells_shift {d : Nibbles} {direction : Shift} {x : Nibble}
    (h : Spells d (.shift direction x)) : ∃ y, d = ⟨0x8, x, y, direction.code⟩ := by
  obtain ⟨kind, x', y, n⟩ := d
  obtain ⟨rfl, rfl, rfl⟩ : kind = 0x8 ∧ x' = x ∧ n = direction.code := h
  exact ⟨y, rfl⟩

theorem ofNibbles_toNibbles (i : Instruction) : ofNibbles i.toNibbles = some i := by
  cases i with
  | skip c => cases c <;> simp [toNibbles, ofNibbles]
  | combine op x y => cases op <;> rfl
  | shift d x => cases d <;> rfl
  | _ => simp [toNibbles, ofNibbles, ofService]

theorem spells_ofArithmetic {x y n : Nibble} {i : Instruction} (h : ofArithmetic x y n = some i) :
    Spells ⟨0x8, x, y, n⟩ i := by
  unfold ofArithmetic at h
  split at h <;> cases h <;> simp [Spells, toNibbles, Operation.code, Shift.code]

theorem spells_ofService {x y n : Nibble} {i : Instruction} (h : ofService x y n = some i) :
    Spells ⟨0xF, x, y, n⟩ i := by
  unfold ofService at h
  split at h <;> cases h <;> rfl

theorem spells_of_ofNibbles {d : Nibbles} {i : Instruction} (h : ofNibbles d = some i) :
    Spells d i := by
  have byteForm := d.ofByte_byte.symm
  have addressForm := d.ofAddress_address.symm
  obtain ⟨k, x, y, n⟩ := d
  unfold ofNibbles at h
  split at h
  case h_1 hk =>
    cases hk
    clear byteForm addressForm
    split at h <;> cases h
    all_goals simp_all [Spells, toNibbles]
  case h_2 hk | h_3 hk | h_11 hk | h_12 hk => cases hk; cases h; exact addressForm
  case h_4 hk | h_5 hk | h_7 hk | h_8 hk | h_13 hk => cases hk; cases h; exact byteForm
  case h_6 hk | h_10 hk =>
    cases hk
    obtain ⟨hn, rfl⟩ := Option.ite_some_none_eq_some.mp h
    cases hn
    rfl
  case h_9 hk => cases hk; exact spells_ofArithmetic h
  case h_14 hk => cases hk; cases h; rfl
  case h_15 hk =>
    cases hk
    clear byteForm addressForm
    split at h <;> cases h
    all_goals simp_all [Spells, toNibbles]
  case h_16 =>
    obtain rfl : k = 0xF := by
      clear byteForm addressForm
      grind
    exact spells_ofService h

theorem ofNibbles_of_spells {d : Nibbles} {i : Instruction} (h : Spells d i) :
    ofNibbles d = some i := by
  cases i with
  | shift direction x =>
    obtain ⟨y, rfl⟩ := exists_of_spells_shift h
    cases direction <;> rfl
  | _ =>
    obtain rfl := h
    exact ofNibbles_toNibbles _

/-- The decoder reads exactly the spellings of an instruction. -/
theorem ofNibbles_eq_some_iff {d : Nibbles} {i : Instruction} :
    ofNibbles d = some i ↔ Spells d i := ⟨spells_of_ofNibbles, ofNibbles_of_spells⟩

/-- What is encoded is decoded again. -/
theorem decode_encode (i : Instruction) : decode i.encode = some i := by
  rw [decode, encode, Nibbles.ofWord_toWord, ofNibbles_toNibbles]

theorem spells_of_decode {w : UInt16} {i : Instruction} (h : decode w = some i) :
    Spells (.ofWord w) i := spells_of_ofNibbles h

end Instruction

end Chip8
