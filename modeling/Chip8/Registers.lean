import Chip8.Word

/-!
# Registers and their arithmetic

Sixteen bytes V0 to VF. An operation computes the new value of Vx from old
values, and some operations also report a flag, which goes to VF after Vx was
written: where x is F the flag is what remains.

Results:

* `get_set`: what setting a register does to each register.
* `get_put`: what the outcome of an operation does to each register.
-/

namespace Chip8

/-- The number of registers. -/
abbrev registerCount : Nat := 16

/-- A byte for each register. -/
structure Registers where
  values : Vector UInt8 registerCount
deriving DecidableEq

namespace Registers

/-- The register that takes flags. -/
def flag : Nibble := 15

/-- The registers of a fresh machine. -/
def zero : Registers := ⟨Vector.replicate registerCount 0⟩

/-- The value of a register. -/
def get (v : Registers) (x : Nibble) : UInt8 := v.values[x]

/-- The registers with one replaced. -/
def set (v : Registers) (x : Nibble) (value : UInt8) : Registers :=
  ⟨v.values.set x.val value x.val_lt⟩

/-- The registers with VF set to one or zero. -/
def setFlag (v : Registers) (b : Bool) : Registers := v.set flag (if b then 1 else 0)

/-- The values of V0 to Vx. -/
def upTo (v : Registers) (x : Nibble) : List UInt8 := v.values.toList.take (x.val + 1)

/-- The registers with the bytes put into V0, V1 and so on; bytes beyond VF are lost. -/
def restore (v : Registers) (bytes : List UInt8) : Registers :=
  ⟨Vector.ofFn fun i => bytes[i.val]?.getD v.values[i]⟩

theorem get_set (v : Registers) (x y : Nibble) (value : UInt8) :
    (v.set x value).get y = if x = y then value else v.get y := by
  simp only [get, set, Fin.getElem_fin, Vector.getElem_set, ← Fin.ext_iff]

theorem get_restore (v : Registers) (bytes : List UInt8) (y : Nibble) :
    (v.restore bytes).get y = bytes[y.val]?.getD (v.get y) := by
  simp [get, restore]

@[simp] theorem length_upTo (v : Registers) (x : Nibble) : (v.upTo x).length = x.val + 1 := by
  simp only [upTo, List.length_take, Vector.length_toList, registerCount]
  omega

theorem getElem?_upTo (v : Registers) (x y : Nibble) :
    (v.upTo x)[y.val]? = if y ≤ x then some (v.get y) else none := by
  simp only [upTo, List.getElem?_take, Vector.getElem?_toList, get, Fin.le_def]
  by_cases h : y.val ≤ x.val
  · have : y.val < x.val + 1 := by omega
    simp [this, h]
  · have : ¬ y.val < x.val + 1 := by omega
    simp [this, h]

end Registers

/-! ## Operations on two registers -/

/-- An operation that computes the new Vx from Vx and Vy. -/
inductive Operation where
  | load
  | or
  | and
  | xor
  | add
  /-- Takes Vy from Vx. -/
  | subtract
  /-- Takes Vx from Vy. -/
  | subtractFrom
deriving DecidableEq, Repr

/-- A shift of Vx by one bit. -/
inductive Shift where
  | right
  | left
deriving DecidableEq, Repr

/-- The bit of Vx that a left shift reports. -/
inductive LeftShiftFlag where
  /-- The bit that is shifted out. -/
  | mostSignificant
  /-- The bit at the other end. -/
  | leastSignificant
deriving DecidableEq, Repr

/-- The new value of Vx, and the flag if one is reported. -/
structure Computed where
  value : UInt8
  flag : Option Bool := none
deriving DecidableEq, Repr

/-- The outcome of an operation on the old values of Vx and Vy. A subtraction reports that
nothing had to be borrowed and that the operands differ. -/
def Operation.compute : Operation → UInt8 → UInt8 → Computed
  | .load, _, vy => ⟨vy, none⟩
  | .or, vx, vy => ⟨vx ||| vy, none⟩
  | .and, vx, vy => ⟨vx &&& vy, none⟩
  | .xor, vx, vy => ⟨vx ^^^ vy, none⟩
  | .add, vx, vy => ⟨vx + vy, some (255 < vx.toNat + vy.toNat)⟩
  | .subtract, vx, vy => ⟨vx - vy, some (vy < vx)⟩
  | .subtractFrom, vx, vy => ⟨vy - vx, some (vx < vy)⟩

/-- The outcome of a shift of the old value of Vx. -/
def Shift.compute (reported : LeftShiftFlag) : Shift → UInt8 → Computed
  | .right, vx => ⟨vx >>> 1, some (vx.toNat.testBit 0)⟩
  | .left, vx =>
    match reported with
    | .mostSignificant => ⟨vx <<< 1, some (vx.toNat.testBit 7)⟩
    | .leastSignificant => ⟨vx <<< 1, some (vx.toNat.testBit 0)⟩

/-- Writes the value to Vx and then the flag, if any, to VF. -/
def Registers.put (v : Registers) (x : Nibble) (c : Computed) : Registers :=
  match c.flag with
  | none => v.set x c.value
  | some b => (v.set x c.value).setFlag b

/-- The flag is written last, so where VF takes the result too it is the flag that stays. -/
theorem Registers.get_put (v : Registers) (x y : Nibble) (c : Computed) :
    (v.put x c).get y =
      match c.flag with
      | none => if x = y then c.value else v.get y
      | some b =>
        if flag = y then (if b then 1 else 0) else if x = y then c.value else v.get y := by
  unfold put
  split <;> simp only [setFlag, get_set]

end Chip8
