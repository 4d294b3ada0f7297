import Chip8.Hex
import Chip8.Instruction.Basic

/-!
# Listings

The text of an instruction as the log shows it: a name, then the operands by
name or, for an address, in parentheses. Numbers are decimal.
-/

namespace Chip8

/-- The operands of an instruction, as a listing shows them. -/
inductive Operands where
  | none
  | address (target : Address)
  | named (fields : List (String × Nat))

/-- The text of the operands. -/
def Operands.text : Operands → String
  | .none => ""
  | .address target => s!"(u12({target.val}))"
  | .named fields =>
    " \x7b " ++ ", ".intercalate (fields.map fun field => s!"{field.1}: {field.2}") ++ " \x7d"

namespace Instruction

/-- The name of an instruction in a listing. -/
def name : Instruction → String
  | .clearScreen => "ClearScreen"
  | .return => "Return"
  | .jump _ => "Jump"
  | .call _ => "Call"
  | .jumpOffset _ => "JumpOffset"
  | .skip (.equalValue ..) => "SkipEqualValue"
  | .skip (.notEqualValue ..) => "SkipNotEqualValue"
  | .skip (.equalRegister ..) => "SkipEqualRegister"
  | .skip (.notEqualRegister ..) => "SkipNotEqualRegister"
  | .skip (.keyDown _) => "SkipKeyPressed"
  | .skip (.keyUp _) => "SkipKeyNotPressed"
  | .loadValue .. => "LoadValue"
  | .addValue .. => "AddValue"
  | .combine .load .. => "LoadRegister"
  | .combine .or .. => "Or"
  | .combine .and .. => "And"
  | .combine .xor .. => "Xor"
  | .combine .add .. => "AddRegister"
  | .combine .subtract .. => "Sub"
  | .combine .subtractFrom .. => "SubNegated"
  | .shift .right _ => "ShiftRight"
  | .shift .left _ => "ShiftLeft"
  | .random .. => "Random"
  | .loadIndex _ => "LoadIndex"
  | .addIndex _ => "AddIndex"
  | .loadGlyph _ => "LoadGlyph"
  | .draw .. => "Draw"
  | .loadDelay _ => "LoadDelay"
  | .setDelay _ => "SetDelay"
  | .setSound _ => "SetSound"
  | .waitKey _ => "WaitKey"
  | .storeDecimal _ => "StoreBcd"
  | .storeRegisters _ => "StoreRegisters"
  | .loadRegisters _ => "LoadRegisters"

/-- The operands of an instruction in a listing. -/
def operands : Instruction → Operands
  | .clearScreen | .return => .none
  | .jump a | .call a | .jumpOffset a | .loadIndex a => .address a
  | .skip (.equalValue x v) | .skip (.notEqualValue x v) | .loadValue x v | .addValue x v
  | .random x v => .named [("x", x.val), ("value", v.toNat)]
  | .skip (.equalRegister x y) | .skip (.notEqualRegister x y) | .combine _ x y =>
    .named [("x", x.val), ("y", y.val)]
  | .draw x y n => .named [("x", x.val), ("y", y.val), ("n", n.val)]
  | .skip (.keyDown x) | .skip (.keyUp x) | .shift _ x | .addIndex x | .loadGlyph x
  | .loadDelay x | .setDelay x | .setSound x | .waitKey x | .storeDecimal x
  | .storeRegisters x | .loadRegisters x => .named [("x", x.val)]

/-- The text of an instruction. -/
def listing (i : Instruction) : String := i.name ++ i.operands.text

end Instruction

end Chip8
