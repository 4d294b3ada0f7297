import Chip8.Machine.History
import Chip8.Proofs.StepCases

/-!
# Failing steps

When a step fails, with which fault, and what it leaves behind. The faults of a
word are listed by its nibbles, with the numbers that an instruction set manual
gives and without the decoder.

Results:

* `machine_of_failed_step`: a step that fails drains the keypad, moves the counter
  behind the word if there was one to fetch, and does nothing else.
* `fault_step_iff`: a step fails iff the machine is running and there is no word at
  the counter or the word is one that fails, and then with that fault.
-/

namespace Chip8

/-! ## The faults of a word -/

/-- The faults of a word, given by its nibbles, where the call stack is `stack` and I is at
    `index`. Sums of addresses are not reduced to words. -/
inductive WordFails (stack : CallStack) (index : Nat) : Nibbles → Fault → Prop
  /-- The nibbles spell no instruction. -/
  | unknown {d : Nibbles} (alien : ∀ i, ¬ Instruction.Spells d i) :
      WordFails stack index d (.unknownInstruction d.toWord)
  /-- 2nnn. -/
  | call {a b c : Nibble} (full : stack.toList.length = 16) :
      WordFails stack index ⟨0x2, a, b, c⟩ .stackOverflow
  /-- 00EE. -/
  | return (empty : stack.toList = []) :
      WordFails stack index ⟨0x0, 0x0, 0xE, 0xE⟩ .stackUnderflow
  /-- Dxyn. -/
  | draw {x y n : Nibble} (rows : 0 < n.val) (beyond : 4096 < index + n.val) :
      WordFails stack index ⟨0xD, x, y, n⟩ (.outOfBounds (index + n.val - 1))
  /-- Fx65. -/
  | load {x : Nibble} (beyond : 4096 ≤ index + x.val) :
      WordFails stack index ⟨0xF, x, 0x6, 0x5⟩ (.outOfBounds (index + x.val))
  /-- Fx55. -/
  | save {x : Nibble} (beyond : 4096 ≤ index + x.val) :
      WordFails stack index ⟨0xF, x, 0x5, 0x5⟩ (.outOfBounds (index + x.val))
  | saveGuarded {x : Nibble} (inside : index + x.val < 4096) (guarded : index < 80) :
      WordFails stack index ⟨0xF, x, 0x5, 0x5⟩ (.readOnly index)
  /-- Fx33. -/
  | decimal {x : Nibble} (beyond : 4096 ≤ index + 2) :
      WordFails stack index ⟨0xF, x, 0x3, 0x3⟩ (.outOfBounds (index + 2))
  | decimalGuarded {x : Nibble} (inside : index + 2 < 4096) (guarded : index < 80) :
      WordFails stack index ⟨0xF, x, 0x3, 0x3⟩ (.readOnly index)

section Word

variable {stack : CallStack} {index : UInt16} {d : Nibbles} {i : Instruction} {fault : Fault}

theorem wordFails_of_obstacle (spelled : Instruction.Spells d i)
    (h : i.obstacle stack index = some fault) : WordFails stack index.toNat d fault := by
  cases i with
  | «return» =>
    obtain ⟨empty, rfl⟩ := Option.ite_some_none_eq_some.mp h
    obtain rfl : d = ⟨0x0, 0x0, 0xE, 0xE⟩ := spelled
    rw [← CallStack.length_toList, List.length_eq_zero_iff] at empty
    exact .return empty
  | call target =>
    obtain ⟨full, rfl⟩ := Option.ite_some_none_eq_some.mp h
    obtain rfl : d = .ofAddress 0x2 target := spelled
    rw [← CallStack.length_toList] at full
    exact .call full
  | draw x y n =>
    obtain rfl : d = ⟨0xD, x, y, n⟩ := spelled
    obtain ⟨rows, beyond, rfl⟩ := Memory.accessFault_eq_some_iff.mp h
    exact .draw rows beyond
  | loadRegisters x =>
    obtain rfl : d = ⟨0xF, x, 0x6, 0x5⟩ := spelled
    obtain ⟨-, beyond, rfl⟩ := Memory.accessFault_eq_some_iff.mp h
    exact .load (Nat.le_of_lt_succ beyond)
  | storeDecimal x =>
    obtain rfl : d = ⟨0xF, x, 0x3, 0x3⟩ := spelled
    obtain ⟨beyond, rfl⟩ | ⟨inside, guarded, rfl⟩ := Memory.storeFault_eq_some_iff.mp h
    · exact .decimal beyond
    · exact .decimalGuarded inside guarded
  | storeRegisters x =>
    obtain rfl : d = ⟨0xF, x, 0x5, 0x5⟩ := spelled
    obtain ⟨beyond, rfl⟩ | ⟨inside, guarded, rfl⟩ := Memory.storeFault_eq_some_iff.mp h
    · exact .save beyond
    · exact .saveGuarded inside guarded
  | _ => cases h

theorem obstacle_of_wordFails (h : WordFails stack index.toNat d fault)
    (decoded : Instruction.ofNibbles d = some i) : i.obstacle stack index = some fault := by
  cases h with
  | unknown alien => exact absurd (Instruction.spells_of_ofNibbles decoded) (alien i)
  | call full =>
    obtain rfl := Option.some.inj decoded
    rw [CallStack.length_toList] at full
    exact if_pos full
  | «return» empty =>
    obtain rfl := Option.some.inj decoded
    rw [← List.length_eq_zero_iff, CallStack.length_toList] at empty
    exact if_pos empty
  | draw rows beyond =>
    obtain rfl := Option.some.inj decoded
    exact Memory.accessFault_eq_some_iff.mpr ⟨rows, beyond, rfl⟩
  | load beyond =>
    obtain rfl := Option.some.inj decoded
    exact Memory.accessFault_eq_some_iff.mpr ⟨Nat.succ_pos _, Nat.lt_succ_of_le beyond, rfl⟩
  | save beyond | decimal beyond =>
    obtain rfl := Option.some.inj decoded
    exact Memory.storeFault_eq_some_iff.mpr (.inl ⟨beyond, rfl⟩)
  | saveGuarded inside guarded | decimalGuarded inside guarded =>
    obtain rfl := Option.some.inj decoded
    exact Memory.storeFault_eq_some_iff.mpr (.inr ⟨inside, guarded, rfl⟩)

theorem wordFails_of_decode_none {word : UInt16} (unknown : Instruction.decode word = none) :
    WordFails stack index.toNat (.ofWord word) (.unknownInstruction word) := by
  have alien : ∀ i, ¬ Instruction.Spells (.ofWord word) i := by
    intro i spelled
    rw [← Instruction.ofNibbles_eq_some_iff, ← Instruction.decode, unknown] at spelled
    cases spelled
  have fails : WordFails stack index.toNat _ _ := .unknown alien
  rw [Nibbles.toWord_ofWord] at fails
  exact fails

theorem eq_unknown_of_wordFails (h : WordFails stack index.toNat d fault)
    (unknown : Instruction.ofNibbles d = none) : fault = .unknownInstruction d.toWord := by
  cases h with
  | unknown => rfl
  | _ => cases unknown

end Word

/-! ## The faults of a step -/

namespace Memory

/-- The word at an address, its high byte first; a byte without a cell counts as zero. -/
def wordAt (m : Memory) (address : Nat) : UInt16 :=
  Word.ofBytes (m.byteAt address) (m.byteAt (address + 1))

variable {m : Memory} {address word : UInt16} {fault : Fault}

theorem readWord_eq_error_iff :
    m.readWord address = .error fault ↔
      memorySize ≤ address.toNat + 1 ∧ fault = .outOfBounds (address.toNat + 1) := by
  rw [readWord_eq]
  by_cases inside : address.toNat + 2 ≤ memorySize
  · rw [if_pos inside]
    constructor
    · intro read
      cases read
    · rintro ⟨beyond, -⟩
      omega
  · rw [if_neg inside, Except.error.injEq]
    constructor
    · rintro rfl
      exact ⟨by omega, rfl⟩
    · rintro ⟨-, rfl⟩
      rfl

theorem readWord_eq_ok_iff :
    m.readWord address = .ok word ↔
      address.toNat + 1 < memorySize ∧ word = m.wordAt address.toNat := by
  rw [readWord_eq]
  by_cases inside : address.toNat + 2 ≤ memorySize
  · rw [if_pos inside, Except.ok.injEq]
    constructor
    · rintro rfl
      exact ⟨inside, rfl⟩
    · rintro ⟨-, rfl⟩
      rfl
  · rw [if_neg inside]
    constructor
    · intro read
      cases read
    · rintro ⟨inside, -⟩
      omega

end Memory

namespace Machine

/-- The faults of a running machine: either there is no word at the counter, or the word has the
    fault. -/
inductive Fails (m : Machine) : Fault → Prop
  | fetch (beyond : 4096 ≤ m.counter.toNat + 1) : Fails m (.outOfBounds (m.counter.toNat + 1))
  | word {fault : Fault} (inside : m.counter.toNat + 1 < 4096)
      (fails : WordFails m.stack m.index.toNat (.ofWord (m.memory.wordAt m.counter.toNat)) fault) :
      Fails m fault

variable {m : Machine} {fault : Fault}

theorem fault_step_of_fails (running : m.awaiting = none) (h : m.Fails fault) :
    m.step.fault = some fault := by
  cases h with
  | fetch beyond =>
    rw [step_unfetched running (Memory.readWord_eq_error_iff.mpr ⟨beyond, rfl⟩)]
  | word inside fails =>
    have fetch : m.memory.readWord m.counter = .ok (m.memory.wordAt m.counter.toNat) :=
      Memory.readWord_eq_ok_iff.mpr ⟨inside, rfl⟩
    generalize m.memory.wordAt m.counter.toNat = word at fetch fails
    cases decoded : Instruction.decode word with
    | some i => rw [step_obstructed running fetch decoded (obstacle_of_wordFails fails decoded)]
    | none =>
      have known := eq_unknown_of_wordFails fails decoded
      rw [Nibbles.toWord_ofWord] at known
      rw [step_unknown running fetch decoded, known]

/-- A step fails iff the machine is running and has the fault. -/
theorem fault_step_iff (m : Machine) (fault : Fault) :
    m.step.fault = some fault ↔ m.awaiting = none ∧ m.Fails fault := by
  constructor
  · intro failed
    have way := m.stepCase
    generalize m.step = outcome at failed way
    cases way with
    | idle | resume | suspend | complete => cases failed
    | unfetched running fetch =>
      cases failed
      obtain ⟨beyond, rfl⟩ := Memory.readWord_eq_error_iff.mp fetch
      exact ⟨running, .fetch beyond⟩
    | unknown running fetch unknown =>
      cases failed
      obtain ⟨inside, rfl⟩ := Memory.readWord_eq_ok_iff.mp fetch
      exact ⟨running, .word inside (wordFails_of_decode_none unknown)⟩
    | obstructed running fetch decoded obstacle =>
      cases failed
      obtain ⟨inside, rfl⟩ := Memory.readWord_eq_ok_iff.mp fetch
      have spelled := Instruction.spells_of_decode decoded
      exact ⟨running, .word inside (wordFails_of_obstacle spelled obstacle)⟩
  · rintro ⟨running, fails⟩
    exact fault_step_of_fails running fails

/-! ## What a failing step leaves -/

/-- A step that fails applies the pending key events and moves the counter behind the word if there
    was one to fetch. Nothing else changes, and there is no beep. -/
theorem machine_of_failed_step {m : Machine} {fault : Fault} (failed : m.step.fault = some fault) :
    m.step.machine =
        { m with
          keypad := ⟨m.keypad.pending.foldl HeldKeys.apply m.keypad.held, []⟩
          counter :=
            match m.memory.readWord m.counter with
            | .error _ => m.counter
            | .ok _ => m.counter + 2 } ∧
      m.step.beeps = 0 := by
  have way := m.stepCase
  rw [← HeldKeys.drain_eq_foldl]
  generalize m.step = outcome at failed way
  cases way with
  | idle | resume | suspend | complete => cases failed
  | unfetched running fetch =>
    rw [fetch]
    exact ⟨rfl, rfl⟩
  | unknown running fetch unknown =>
    rw [fetch]
    exact ⟨rfl, rfl⟩
  | obstructed running fetch decoded obstacle =>
    rw [fetch]
    exact ⟨rfl, rfl⟩

/-- Storing V0 to V5 over the character set, with a key press pending. -/
theorem machine_of_failed_store :
    let m := (started [0xF5, 0x55]).send (.press 3)
    m.step.fault = some (.readOnly 0) ∧
      m.step.machine =
        { m with keypad := ⟨HeldKeys.allUp.apply (.press 3), []⟩, counter := 0x202 } ∧
      m.step.beeps = 0 := by
  intro m
  have fetch : m.memory.readWord m.counter = .ok 0xF555 := readWord_started 0xF555
  have decoded : Instruction.decode 0xF555 = some (.storeRegisters 5) := by decide
  have failed : m.step.fault = some (.readOnly 0) := by
    rw [step_obstructed rfl fetch decoded rfl]
    rfl
  obtain ⟨left, silent⟩ := machine_of_failed_step failed
  rw [fetch] at left
  exact ⟨failed, left, silent⟩

end Machine

end Chip8
