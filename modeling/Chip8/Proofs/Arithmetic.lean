import Chip8.Proofs.Course

/-!
# Arithmetic on registers

Ten words of two classes compute with registers. What they compute is said here in
integers, by the nibbles of the word: a value for Vx from the old values of Vx and Vy,
and for some of them a flag from the same old values, which goes to VF after Vx was
written. So where Vx is VF the flag replaces the value, and where Vy is VF the old flag
is computed with.

Results:

* `toNat_sub_byte`, `toNat_shiftRight_byte`, `toNat_shiftLeft_byte`: operations on bytes, in
  integers.
* `exists_of_result`: each of the words is an instruction that computes its result.
* `registers_of_computed`: what an instruction that computes does to the registers.
* `registers_after_arithmetic`: what the step of such a word does, in every machine.
-/

namespace Chip8

/-- What the word of these nibbles computes where `v` gives the old values of the registers, all of
    them bytes: the new value of Vx, and the flag if there is one. -/
def Nibbles.result (reported : LeftShiftFlag) (v : Nibble → Nat) (d : Nibbles) :
    Option (Nat × Option Bool) :=
  let a := v d.x
  let b := v d.y
  match d.kind, d.n with
  | 0x7, _ => some ((a + d.byte.toNat) % 256, none)
  | 0x8, 0x0 => some (b, none)
  | 0x8, 0x1 => some (a ||| b, none)
  | 0x8, 0x2 => some (a &&& b, none)
  | 0x8, 0x3 => some (a ^^^ b, none)
  | 0x8, 0x4 => some ((a + b) % 256, some (255 < a + b))
  | 0x8, 0x5 => some ((256 + a - b) % 256, some (b < a))
  | 0x8, 0x6 => some (a / 2, some (a % 2 = 1))
  | 0x8, 0x7 => some ((256 + b - a) % 256, some (a < b))
  | 0x8, 0xE =>
    match reported with
    | .mostSignificant => some (2 * a % 256, some (128 ≤ a))
    | .leastSignificant => some (2 * a % 256, some (a % 2 = 1))
  | _, _ => none

/-! ## Bytes as integers -/

theorem toNat_sub_byte (a b : UInt8) : (a - b).toNat = (256 + a.toNat - b.toNat) % 256 := by
  have := b.toNat_lt
  rw [UInt8.toNat_sub]
  omega

theorem toNat_shiftRight_byte (a : UInt8) : (a >>> 1).toNat = a.toNat / 2 := by
  rw [UInt8.toNat_shiftRight]
  exact Nat.shiftRight_eq_div_pow _ 1

theorem toNat_shiftLeft_byte (a : UInt8) : (a <<< 1).toNat = 2 * a.toNat % 256 := by
  rw [UInt8.toNat_shiftLeft]
  show (a.toNat <<< 1) % 256 = _
  rw [Nat.shiftLeft_eq, Nat.mul_comm]

theorem testBit_seven_byte (a : UInt8) : a.toNat.testBit 7 = decide (128 ≤ a.toNat) := by
  have := a.toNat_lt
  rw [Nat.testBit_eq_decide_div_mod_eq, decide_eq_decide]
  omega

/-! ## Instructions that compute -/

/-- The register that an instruction puts an outcome into, and the outcome, if it computes one from
    registers. -/
def Instruction.computed (reported : LeftShiftFlag) (v : Registers) :
    Instruction → Option (Nibble × Computed)
  | .addValue x value => some (x, ⟨v.get x + value, none⟩)
  | .combine operation x y => some (x, operation.compute (v.get x) (v.get y))
  | .shift direction x => some (x, direction.compute reported (v.get x))
  | _ => none

/-- Each word that has a result is an instruction that computes it. -/
theorem exists_of_result {reported : LeftShiftFlag} {v : Registers} {d : Nibbles} {value : Nat}
    {flag : Option Bool}
    (h : d.result reported (fun k => (v.get k).toNat) = some (value, flag)) :
    ∃ i c, Instruction.ofNibbles d = some i ∧ i.computed reported v = some (d.x, c) ∧
      c.value.toNat = value ∧ c.flag = flag := by
  obtain ⟨kind, x, y, n⟩ := d
  unfold Nibbles.result at h
  split at h
  case h_1 hk =>
    cases hk
    cases h
    exact ⟨.addValue x _, _, rfl, rfl, UInt8.toNat_add _ _, rfl⟩
  case h_2 hk hn =>
    cases hk; cases hn; cases h
    exact ⟨.combine .load x y, _, rfl, rfl, rfl, rfl⟩
  case h_3 hk hn =>
    cases hk; cases hn; cases h
    exact ⟨.combine .or x y, _, rfl, rfl, UInt8.toNat_or _ _, rfl⟩
  case h_4 hk hn =>
    cases hk; cases hn; cases h
    exact ⟨.combine .and x y, _, rfl, rfl, UInt8.toNat_and _ _, rfl⟩
  case h_5 hk hn =>
    cases hk; cases hn; cases h
    exact ⟨.combine .xor x y, _, rfl, rfl, UInt8.toNat_xor _ _, rfl⟩
  case h_6 hk hn =>
    cases hk; cases hn; cases h
    exact ⟨.combine .add x y, _, rfl, rfl, UInt8.toNat_add _ _, rfl⟩
  case h_7 hk hn =>
    cases hk; cases hn; cases h
    exact ⟨.combine .subtract x y, _, rfl, rfl, toNat_sub_byte _ _, rfl⟩
  case h_8 hk hn =>
    cases hk; cases hn; cases h
    exact ⟨.shift .right x, _, rfl, rfl, toNat_shiftRight_byte _,
      congrArg some (Nat.testBit_zero _)⟩
  case h_9 hk hn =>
    cases hk; cases hn; cases h
    exact ⟨.combine .subtractFrom x y, _, rfl, rfl, toNat_sub_byte _ _, rfl⟩
  case h_10 hk hn =>
    cases hk; cases hn
    refine ⟨.shift .left x, _, rfl, rfl, ?_⟩
    cases reported with
    | mostSignificant =>
      cases h
      exact ⟨toNat_shiftLeft_byte _, congrArg some (testBit_seven_byte _)⟩
    | leastSignificant =>
      cases h
      exact ⟨toNat_shiftLeft_byte _, congrArg some (Nat.testBit_zero _)⟩
  case h_11 => cases h

/-- What the registers hold, in integers, once an outcome was put into them. -/
theorem Registers.toNat_get_put (v : Registers) (x k : Nibble) (c : Computed) :
    ((v.put x c).get k).toNat =
      let put := if k = x then c.value.toNat else (v.get k).toNat
      c.flag.elim put fun b => if k = 0xF then b.toNat else put := by
  have ofIf : ∀ b : Bool, (if b then UInt8.toNat 1 else UInt8.toNat 0) = b.toNat := by decide
  rw [get_put]
  cases c.flag with
  | none => simp only [apply_ite UInt8.toNat, eq_comm (a := x), Option.elim_none]
  | some b =>
    simp only [apply_ite UInt8.toNat, eq_comm (a := x), eq_comm (a := flag), Option.elim_some]
    rw [ofIf]
    rfl

/-- The flag of a subtraction of equal operands is zero. -/
theorem flag_of_equal_operands {reported : LeftShiftFlag} {v : Nibble → Nat} {d : Nibbles}
    {value : Nat} {flag : Option Bool} (kind : d.kind = 0x8) (last : d.n = 0x5 ∨ d.n = 0x7)
    (equal : v d.x = v d.y) (h : d.result reported v = some (value, flag)) :
    flag = some false := by
  obtain ⟨k, x, y, n⟩ := d
  obtain rfl : k = 0x8 := kind
  have equal : v x = v y := equal
  have notBelow : ∀ a b : Nat, a = b → decide (a < b) = false := by
    rintro a _ rfl
    exact decide_eq_false (Nat.lt_irrefl a)
  obtain rfl | rfl : n = 0x5 ∨ n = 0x7 := last
  · cases h
    exact congrArg some (notBelow _ _ equal.symm)
  · cases h
    exact congrArg some (notBelow _ _ equal)

namespace Machine

variable {m : Machine} {d : Nibbles} {i : Instruction} {x : Nibble} {c : Computed}

/-- An instruction that computes changes no register but by what it computes. -/
theorem registers_of_computed (done : m.carriesOut = some i)
    (computes : i.computed m.config.leftShiftFlag m.registers = some (x, c)) :
    m.step.machine.registers = m.registers.put x c ∧ m.step.machine.index = m.index := by
  have index := m.leaves_step.index
  rw [done] at index
  cases i with
  | addValue | combine | shift =>
    cases computes
    exact ⟨registers_of_run done rfl rfl, index⟩
  | _ => cases computes

theorem obstacle_of_computed {reported : LeftShiftFlag} {v : Registers}
    (computes : i.computed reported v = some (x, c)) (stack : CallStack) (index : UInt16) :
    i.obstacle stack index = none := by
  cases i with
  | addValue | combine | shift => rfl
  | _ => cases computes

theorem carriesOut_of_toWord (running : m.awaiting = none)
    (fetch : m.memory.readWord m.counter = .ok d.toWord)
    (decoded : Instruction.ofNibbles d = some i) (clear : i.obstacle m.stack m.index = none) :
    m.carriesOut = some i := by
  apply carriesOut_of_clear running fetch _ clear
  rw [Instruction.decode, Nibbles.ofWord_toWord, decoded]

/-- The second register of a shift is not looked at. -/
theorem ofNibbles_of_shift (kind : d.kind = 0x8) (last : d.n = 0x6 ∨ d.n = 0xE) :
    ∃ direction, ∀ y, Instruction.ofNibbles { d with y := y } = some (.shift direction d.x) := by
  obtain ⟨direction, code⟩ : ∃ direction : Shift, d.n = direction.code :=
    last.elim (fun six => ⟨.right, six⟩) (fun fourteen => ⟨.left, fourteen⟩)
  exact ⟨direction, fun y => Instruction.ofNibbles_of_spells ⟨kind, rfl, code⟩⟩

theorem registers_of_shift (running : m.awaiting = none) (kind : d.kind = 0x8)
    (last : d.n = 0x6 ∨ d.n = 0xE) (fetch : m.memory.readWord m.counter = .ok d.toWord)
    {memory : Memory} {y : Nibble}
    (fetch' : memory.readWord m.counter = .ok { d with y := y }.toWord) :
    { m with memory := memory }.step.machine.registers = m.step.machine.registers := by
  obtain ⟨direction, decoded⟩ := ofNibbles_of_shift kind last
  have done : m.carriesOut = some (.shift direction d.x) :=
    carriesOut_of_toWord running fetch (decoded d.y) rfl
  have done' : { m with memory := memory }.carriesOut = some (.shift direction d.x) :=
    carriesOut_of_toWord (m := { m with memory := memory }) running fetch' (decoded y) rfl
  rw [(registers_of_computed done rfl).1, (registers_of_computed done' rfl).1]

/-- A word that computes with registers puts its value into Vx and then the flag, if there is one,
    into VF, and leaves the other registers and I as they were. A shift does not look at Vy, and
    where the operands of a subtraction are equal the flag is zero. -/
theorem registers_after_arithmetic {m : Machine} {d : Nibbles} {value : Nat} {flag : Option Bool}
    (running : m.awaiting = none) (fetch : m.memory.readWord m.counter = .ok d.toWord)
    (computes : d.result m.config.leftShiftFlag (fun k => (m.reg k).toNat) = some (value, flag)) :
    let after := m.step.machine
    m.step.fault = none ∧
    (∀ k, (after.reg k).toNat =
      let put := if k = d.x then value else (m.reg k).toNat
      flag.elim put fun b => if k = 0xF then b.toNat else put) ∧
    after.index = m.index ∧
    (d.kind = 0x8 → d.n = 0x6 ∨ d.n = 0xE → ∀ (memory : Memory) (y : Nibble),
      memory.readWord m.counter = .ok { d with y := y }.toWord →
        { m with memory := memory }.step.machine.registers = after.registers) ∧
    (d.kind = 0x8 → d.n = 0x5 ∨ d.n = 0x7 → m.reg d.x = m.reg d.y → after.reg 0xF = 0) := by
  intro after
  obtain ⟨i, c, decoded, computed, valueEq, flagEq⟩ := exists_of_result computes
  have done : m.carriesOut = some i :=
    carriesOut_of_toWord running fetch decoded (obstacle_of_computed computed _ _)
  obtain ⟨put, index⟩ := registers_of_computed done computed
  have reg : ∀ k, (after.reg k).toNat = ((m.registers.put d.x c).get k).toNat :=
    fun k => congrArg (fun v : Registers => (v.get k).toNat) put
  refine ⟨(of_carriesOut done).2.1, ?_, index, ?_, ?_⟩
  · intro k
    rw [reg, Registers.toNat_get_put, valueEq, flagEq]
    rfl
  · intro kind last memory y fetch'
    exact registers_of_shift running kind last fetch fetch'
  · intro kind last equal
    obtain rfl : flag = some false :=
      flag_of_equal_operands kind last (congrArg UInt8.toNat equal) computes
    apply UInt8.toNat_inj.mp
    rw [reg, Registers.toNat_get_put, flagEq]
    rfl

/-- A machine with 200 in VF and the word of these nibbles at its counter. -/
def holding (d : Nibbles) : Machine :=
  { create {} (.ofSeed 0) with
    memory := Memory.initial.overwrite 0x200 [Word.high d.toWord, Word.low d.toWord]
    registers := Registers.zero.set 0xF 200 }

/-- Where VF is an operand and takes the outcome too: the carry of a sum, the flag of a subtraction
    from itself, and the bit that a shift drops, whatever its second register. -/
theorem registers_after_arithmetic_of_flag :
    ((holding ⟨0x8, 0xF, 0xF, 0x4⟩).step.machine.reg 0xF).toNat = 1 ∧
      (holding ⟨0x8, 0xF, 0xF, 0x5⟩).step.machine.reg 0xF = 0 ∧
      (holding ⟨0x8, 0xF, 0x0, 0x6⟩).step.machine.registers =
        (holding ⟨0x8, 0xF, 0xF, 0x6⟩).step.machine.registers := by
  have fetch : ∀ d, (holding d).memory.readWord 0x200 = .ok d.toWord :=
    fun d => Memory.readWord_overwrite _ 0x200 d.toWord (by decide)
  have sum := registers_after_arithmetic (m := holding ⟨0x8, 0xF, 0xF, 0x4⟩) rfl (fetch _) rfl
  have difference :=
    registers_after_arithmetic (m := holding ⟨0x8, 0xF, 0xF, 0x5⟩) rfl (fetch _) rfl
  refine ⟨sum.2.1 0xF, difference.2.2.2.2 rfl (.inl rfl) rfl, ?_⟩
  -- the two machines with a shift differ in their memory only
  have first := fetch ⟨0x8, 0xF, 0xF, 0x6⟩
  have second := fetch ⟨0x8, 0xF, 0x0, 0x6⟩
  obtain ⟨m, start⟩ : ∃ m, holding ⟨0x8, 0xF, 0xF, 0x6⟩ = m := ⟨_, rfl⟩
  have other : holding ⟨0x8, 0xF, 0x0, 0x6⟩ =
      { m with memory := (holding ⟨0x8, 0xF, 0x0, 0x6⟩).memory } := by
    rw [← start]
    rfl
  have counter : m.counter = 0x200 := by rw [← start]; rfl
  have computes : Nibbles.result m.config.leftShiftFlag (fun k => (m.reg k).toNat)
      ⟨0x8, 0xF, 0xF, 0x6⟩ = some (100, some false) := by rw [← start]; rfl
  rw [start] at first
  rw [start, other]
  exact (registers_after_arithmetic (by rw [← start]; rfl) (by rw [counter, first])
    computes).2.2.2.1 rfl (.inl rfl) _ 0x0 (by rw [counter, second])

end Machine

end Chip8
